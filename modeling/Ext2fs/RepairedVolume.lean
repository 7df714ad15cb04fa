import Ext2fs.AllocRuns
import Ext2fs.Fsck.DupCorrect
import Ext2fs.Fsck.Pass5Right
import Ext2fs.Fsck.PoolRuns
import Ext2fs.Newfs.Mounted

/-!
# The allocator on a repaired volume

`fsck_ext2fs` finds the blocks of the inodes, clears the inodes it has to, and writes bitmaps and counters
anew.  Then the driver mounts the volume.

* `bytesOfBits` — the bytes of a bitmap;
* `LayoutOf` — the layout the passes know is that of the superblock and the descriptors;
* `repairedSys` — what the driver finds;
* `repaired_volume_runs` — **over every run on a repaired volume** nothing is handed out twice, and no block
  that a remaining inode references unless it was given back before.
-/

namespace Ext2fs.Fsck

open GroupMap Allocator NumberPool

/-! ### Bytes -/

section

variable {n : ℕ}

/-- The bytes of a bitmap. -/
def bytesOfBits (bits : Fin n → Bool) : Bitmap :=
  (List.finRange n).foldl (fun map k => if bits k then map.setbit k else map) fun _ => 0

theorem isclr_foldl (bits : Fin n → Bool) (l : List (Fin n)) (map : Bitmap) (i : ℕ) :
    (l.foldl (fun map k => if bits k then map.setbit k else map) map).isclr i =
      (map.isclr i && l.all fun k => !(decide (k.1 = i) && bits k)) := by
  induction l generalizing map with
  | nil => exact (Bool.and_true _).symm
  | cons k l ih =>
    rw [List.foldl_cons, ih, List.all_cons, ← Bool.and_assoc]
    congr 1
    cases hb : bits k with
    | false => simp
    | true =>
      rw [if_pos rfl, Bitmap.isclr_setbit]
      by_cases hk : i = k.1
      · subst hk
        rw [Function.update_self]
        simp
      · rw [Function.update_of_ne hk]
        simp [Ne.symm hk]

theorem isclr_bytesOfBits (bits : Fin n → Bool) {i : ℕ} (hi : i < n) :
    (bytesOfBits bits).isclr i = !bits ⟨i, hi⟩ := by
  have hzero : Bitmap.isclr (fun _ => 0) i = true := by simp [Bitmap.isclr]
  rw [bytesOfBits, isclr_foldl, hzero, Bool.true_and]
  cases hb : bits ⟨i, hi⟩ with
  | false =>
    refine List.all_eq_true.2 fun k _ => ?_
    by_cases hk : k.1 = i
    · obtain rfl : k = ⟨i, hi⟩ := Fin.ext hk
      rw [hb]
      simp
    · simp [hk]
  | true =>
    refine List.all_eq_false.2 ⟨⟨i, hi⟩, List.mem_finRange _, ?_⟩
    simp [hb]

/-- The bits that count, where those behind are set. -/
theorem clearBits_bytesOfBits (bits : Fin n → Bool) {m : ℕ} (hm : m ≤ n)
    (hpad : ∀ k : Fin n, m ≤ k → bits k = true) : clearBits (bytesOfBits bits) m = clear bits := by
  have hset : ((Finset.range m).filter fun i => (bytesOfBits bits).isclr i = true) =
      ((Finset.univ : Finset (Fin n)).filter fun k => (!bits k) = true).map Fin.valEmbedding := by
    ext i
    rw [Finset.mem_filter, Finset.mem_range, Finset.mem_map]
    constructor
    · rintro ⟨hi, hclr⟩
      rw [isclr_bytesOfBits bits (by omega)] at hclr
      exact ⟨⟨i, by omega⟩, Finset.mem_filter.2 ⟨Finset.mem_univ _, hclr⟩, rfl⟩
    · rintro ⟨k, hk, rfl⟩
      have hclr := (Finset.mem_filter.1 hk).2
      have hlt : k.1 < m := by
        by_contra hge
        rw [hpad k (by omega)] at hclr
        exact Bool.false_ne_true hclr
      exact ⟨hlt, (isclr_bytesOfBits bits k.2).trans hclr⟩
  have hlist : ((Finset.univ : Finset (Fin n)).filter fun k => (!bits k) = true).card =
      ((List.finRange n).filter fun k => decide ((!bits k) = true)).length := rfl
  rw [clearBits, hset, Finset.card_map, hlist, clear, List.countP_eq_length_filter]
  simp only [Bool.decide_eq_true]

end

/-! ### What the driver finds -/

/-- The passes know the layout of the superblock and the descriptors. -/
structure LayoutOf (fs : SbImage) (v : GroupTable) (lay : Layout) : Prop where
  maxfsblock : lay.maxfsblock = fs.e2fs_bcount.toNat
  first_dblock : lay.first_dblock = fs.e2fs_first_dblock.toNat
  bpg : lay.bpg = fs.e2fs_bpg.toNat
  ipg : lay.ipg = fs.e2fs_ipg.toNat
  gcount : lay.gcount = fs.gcount
  logBsize : lay.logBsize = fs.e2fs_log_bsize.toNat
  b_bitmap : lay.b_bitmap = v.b_bitmap
  i_bitmap : lay.i_bitmap = v.i_bitmap

/-- The mounted volume, before the first search: the bitmaps are where the descriptors say. -/
def repairedSys (fs : SbImage) (v : GroupTable) (r : Pass5Result fs) (contigsumsize : ℕ) : AllocSys where
  gd c := {
    bbmap := bytesOfBits (r.disk (fs.place (v.b_bitmap c)))
    ibmap := bytesOfBits (r.disk (fs.place (v.i_bitmap c)))
    nbfree := (r.gd c).nbfree
    nifree := (r.gd c).nifree
    ndirs := (r.gd c).ndirs
    cs := { init := false, sum := 0, maxcluster := contigsumsize } }
  sb := ⟨r.fbcount, r.ficount, ∑ c ∈ Finset.range fs.gcount, (r.gd c).ndirs⟩
  flights := []

/-- What is in use after the passes, of which `pass4` has cleared the inodes `is`: the blocks of the file
system itself, those that a remaining inode references, the reserved inodes and those that are there. -/
def InUse (lay : Layout) (d : Readings) (a : Replies) (is : List ℕ) (statemap : ℕ → InoState) :
    Number → Prop
  | .block b => b ∈ lay.metadata ∨ ∃ i ∈ lay.used d a, i ∉ is ∧ b ∈ lay.refs d i
  | .inode ino => Reserved ino ∨ statemap ino ≠ .ustate

section

variable {fs : SbImage} {v : GroupTable} {lay : Layout} {f : Found} {r : Pass5Result fs}

/-- The block 0 belongs to the file system. -/
theorem zero_mem_metadata (hlay : LayoutOf fs v lay) (hpos : 0 < fs.gcount)
    (hfirst : fs.e2fs_first_dblock.toNat ≤ 1) : 0 ∈ lay.metadata := by
  have hbase : lay.dbase 0 = fs.e2fs_first_dblock.toNat := by
    rw [Layout.dbase, hlay.first_dblock, Nat.zero_mul, Nat.zero_add]
    exact u32_of_lt (by omega)
  refine List.mem_flatMap.2 ⟨0, List.mem_range.2 (hlay.gcount ▸ hpos), ?_⟩
  have hcopies : 0 ∈ lay.copies 0 := by
    unfold Layout.copies
    rw [if_pos (.inr rfl), if_pos rfl, hbase, List.mem_append, List.mem_map]
    by_cases h0 : fs.e2fs_first_dblock.toNat = 0
    · exact .inl ⟨0, List.mem_range.2 (Nat.succ_pos _), by omega⟩
    · exact .inr (List.mem_range.2 (by omega))
  exact List.mem_append_right _ (List.mem_append_right _ (List.mem_append_right _ hcopies))

variable {statemap : ℕ → InoState}

/-- The groups cover the volume, and end before 2^31. -/
theorem Countable.covers (hc : Countable fs statemap) (hpos : 0 < fs.gcount)
    (hfirst : fs.e2fs_first_dblock.toNat ≤ 1) :
    fs.e2fs_first_dblock.toNat < fs.e2fs_bcount.toNat ∧
      fs.e2fs_bcount.toNat ≤ fs.gcount * fs.e2fs_bpg.toNat + fs.e2fs_first_dblock.toNat ∧
        fs.gcount * fs.e2fs_bpg.toNat + fs.e2fs_first_dblock.toNat < 2 ^ 31 := by
  have hbpg : fs.e2fs_bpg.toNat ≠ 0 := by
    rw [hc.bpg]
    unfold NBBY SbImage.bsize
    positivity
  have hlast := SbImage.dbase_eq hbpg hc.run fs.gcount le_rfl
  have hrange := (fs.dbase_range fs.gcount).2
  have hzero : fs.dbase 0 = fs.e2fs_first_dblock.toNat := by
    unfold SbImage.dbase
    rw [Nat.zero_mul, Nat.zero_add, u32_of_lt (by omega), i32_of_lt (by omega) (by omega)]
  have hle : u32 ((fs.e2fs_bcount.toNat : ℤ) - fs.e2fs_first_dblock.toNat) ≤
      fs.gcount * fs.e2fs_bpg.toNat :=
    (Newfs.howmany_le_iff (Nat.pos_of_ne_zero hbpg)).1 le_rfl
  have hbcount := fs.e2fs_bcount.isLt
  rw [hzero] at hlast
  have hend : fs.gcount * fs.e2fs_bpg.toNat + fs.e2fs_first_dblock.toNat < 2 ^ 31 := by omega
  have hmore : fs.e2fs_first_dblock.toNat < fs.e2fs_bcount.toNat := by
    by_contra hge
    rcases Nat.eq_or_lt_of_le (Nat.le_of_not_lt hge) with heq | hlt
    · have hnone : fs.gcount = 0 := by
        unfold SbImage.gcount howmany
        rw [heq]
        simp [u32]
      omega
    · unfold u32 at hle
      omega
  refine ⟨hmore, ?_, hend⟩
  unfold u32 at hle
  omega

section

variable (hok : ext2CheckSbCompat fs.toSuperblock false = 0)

/-- The checker and the driver count the same groups. -/
theorem mounted_gcount (hbpg : 0 < fs.e2fs_bpg.toNat)
    (hfirst : fs.e2fs_first_dblock.toNat < fs.e2fs_bcount.toNat)
    (hroom : fs.e2fs_bcount.toNat + fs.e2fs_bpg.toNat < 2 ^ 32) :
    (fs.toSuperblock.mounted false hok).gcount = fs.gcount := by
  have hdiff : ((fs.e2fs_bcount.toNat : ℤ) - fs.e2fs_first_dblock.toNat) =
      ((fs.e2fs_bcount.toNat - fs.e2fs_first_dblock.toNat : ℕ) : ℤ) := by omega
  have hsum : ((fs.e2fs_bcount.toNat : ℤ) - fs.e2fs_first_dblock.toNat + fs.e2fs_bpg.toNat - 1) =
      ((fs.e2fs_bcount.toNat - fs.e2fs_first_dblock.toNat + fs.e2fs_bpg.toNat - 1 : ℕ) : ℤ) := by
    omega
  unfold SbImage.gcount
  rw [hdiff, u32_of_lt (by omega), Newfs.howmany_eq_div hbpg]
  show u32 ((fs.e2fs_bcount.toNat : ℤ) - fs.e2fs_first_dblock.toNat + fs.e2fs_bpg.toNat - 1) /
    fs.e2fs_bpg.toNat = _
  rw [hsum, u32_of_lt (by omega)]

/-- **What the allocator relies on** is so on a volume that the passes repair. -/
theorem Countable.geometry (hc : Countable fs statemap) (hpos : 0 < fs.gcount)
    (hsize : fs.bsize = 1024 ∨ fs.bsize = 2048 ∨ fs.bsize = 4096)
    (hfirst : fs.e2fs_first_dblock.toNat ≤ 1) (hfpg : fs.e2fs_bpg = fs.e2fs_fpg)
    (hipg : 0 < fs.e2fs_ipg.toNat) (hbytes : NBBY ∣ fs.e2fs_ipg.toNat) :
    (fs.toSuperblock.mounted false hok).gcount = fs.gcount ∧
      Allocator.Geometry (fs.toSuperblock.mounted false hok) := by
  obtain ⟨hmore, hcover, hend⟩ := hc.covers hpos hfirst
  have hbits := (bits_lt hsize).2
  have hbpg := hc.bpg
  have hle := hc.ipg
  have hbpos : 0 < fs.e2fs_bpg.toNat := by
    rw [hbpg]
    exact Nat.lt_of_succ_lt (bits_lt hsize).1
  have hgcount := mounted_gcount hok hbpos hmore (by omega)
  have hprod : fs.gcount * fs.e2fs_ipg.toNat ≤ fs.gcount * fs.e2fs_bpg.toNat :=
    Nat.mul_le_mul_left _ (by omega)
  refine ⟨hgcount, congrArg BitVec.toNat hfpg, ?_, ?_, hbytes, hipg, ?_, hfirst, hmore, ?_, ?_, rfl⟩
  · show NBBY ∣ fs.e2fs_fpg.toNat
    rw [← hfpg, hbpg]
    exact Dvd.intro _ rfl
  · show fs.e2fs_fpg.toNat < _
    rw [← hfpg, hbpg]
    exact hbits
  · exact lt_of_le_of_lt hle hbits
  · show fs.e2fs_bcount.toNat ≤ _
    omega
  · rw [hgcount]
    show fs.gcount * fs.e2fs_ipg.toNat < _
    omega

/-- The bits of a repaired group. -/
theorem GroupRight.bits {c : ℕ} {bb ib : fs.Bits} {g : GroupCounts} (h : GroupRight fs f c bb ib g) :
    (∀ i < fs.e2fs_bpg.toNat, (bytesOfBits bb).isclr i = true →
      ¬fs.Used f.blockmap (fs.blockOf c i)) ∧
    ∀ i < fs.e2fs_ipg.toNat, (bytesOfBits ib).isclr i = true → ¬fs.Taken f.statemap (fs.inodeOf c i) := by
  constructor
  · intro i hi hclr hused
    obtain ⟨hlt, hiff⟩ := h.blocks i hi
    rw [isclr_bytesOfBits bb hlt, hiff.2 hused] at hclr
    exact Bool.false_ne_true hclr
  · intro i hi hclr htaken
    obtain ⟨hlt, hiff⟩ := h.inodes i hi
    rw [isclr_bytesOfBits ib hlt, hiff.2 htaken] at hclr
    exact Bool.false_ne_true hclr

/-- The number of a block, in the checker and in the driver. -/
theorem blockOf_eq {c i : ℕ} (hc : c < fs.gcount) (hi : i < fs.e2fs_bpg.toNat)
    (hend : fs.gcount * fs.e2fs_bpg.toNat + fs.e2fs_first_dblock.toNat < 2 ^ 31)
    (hfpg : fs.e2fs_bpg = fs.e2fs_fpg) :
    fs.blockOf c i = blockAt (fs.toSuperblock.mounted false hok) c i := by
  have hgroup : c * fs.e2fs_bpg.toNat + fs.e2fs_bpg.toNat ≤ fs.gcount * fs.e2fs_bpg.toNat := by
    rw [← Nat.succ_mul]
    exact Nat.mul_le_mul_right _ hc
  show u32 _ = c * fs.e2fs_fpg.toNat + fs.e2fs_first_dblock.toNat + i
  rw [← hfpg]
  exact u32_of_lt (by omega)

variable (hc : Countable fs statemap) (hpos : 0 < fs.gcount)
  (hsize : fs.bsize = 1024 ∨ fs.bsize = 2048 ∨ fs.bsize = 4096)
  (hfirst : fs.e2fs_first_dblock.toNat ≤ 1) (hfpg : fs.e2fs_bpg = fs.e2fs_fpg)
  (hipg : 0 < fs.e2fs_ipg.toNat) (hbytes : NBBY ∣ fs.e2fs_ipg.toNat)

include hc hpos hsize hfirst hfpg hipg hbytes

/-- **The counters of a repaired volume** agree with its bitmaps. -/
theorem Repaired.counters (hr : Repaired fs v f r) (hzero : f.blockmap 0 = true) (contigsumsize : ℕ) :
    CountersOk (fs.toSuperblock.mounted false hok) (repairedSys fs v r contigsumsize).gd
      (repairedSys fs v r contigsumsize).sb := by
  obtain ⟨hmore, hcover, hend⟩ := hc.covers hpos hfirst
  have hgcount := (hc.geometry hok hpos hsize hfirst hfpg hipg hbytes).1
  have hbpg := hc.bpg
  have hle := hc.ipg
  refine ⟨fun c hcg => ?_, ?_, ?_⟩
  · rw [hgcount] at hcg
    have hgroup := hr.groups c hcg
    refine ⟨?_, ?_, fun i hi hclr => ?_⟩
    · refine hgroup.nbfree.trans (clearBits_bytesOfBits _ ?_ fun k hk => hgroup.blockPadding k ?_).symm
      · show fs.e2fs_fpg.toNat ≤ _
        rw [← hfpg, hbpg]
      · rw [hfpg]
        exact hk
    · exact hgroup.nifree.trans (clearBits_bytesOfBits _ hle hgroup.inodePadding).symm
    · replace hi : i < fs.e2fs_bpg.toNat := by
        rw [hfpg]
        exact hi
      have hfree := hgroup.bits.1 i hi hclr
      rw [blockOf_eq hok hcg hi hend hfpg] at hfree
      unfold SbImage.Used at hfree
      rw [not_or, Nat.not_le] at hfree
      refine ⟨Nat.pos_of_ne_zero fun h0 => ?_, hfree.2⟩
      rw [h0] at hfree
      exact hfree.1 hzero
  · rw [hgcount]
    exact hr.fbcount
  · rw [hgcount]
    exact hr.ficount

/-- **Nothing that is in use is free.** -/
theorem Repaired.inUse (hr : Repaired fs v f r) {kept : Number → Prop}
    (hblock : ∀ b, kept (.block b) → f.blockmap b = true)
    (hinode : ∀ ino, kept (.inode ino) → Reserved ino ∨ f.statemap ino ≠ .ustate) (contigsumsize : ℕ)
    {n : Number} (hn : kept n) :
    n ∉ free (fs.toSuperblock.mounted false hok) (repairedSys fs v r contigsumsize).gd := by
  obtain ⟨hmore, hcover, hend⟩ := hc.covers hpos hfirst
  have hgcount := (hc.geometry hok hpos hsize hfirst hfpg hipg hbytes).1
  cases n with
  | block b =>
    rintro ⟨c, hcg, i, hi, hclr, rfl⟩
    rw [hgcount] at hcg
    replace hi : i < fs.e2fs_bpg.toNat := by
      rw [hfpg]
      exact hi
    have hfree := (hr.groups c hcg).bits.1 i hi hclr
    rw [blockOf_eq hok hcg hi hend hfpg] at hfree
    exact hfree (.inl (hblock _ hn))
  | inode ino =>
    rintro ⟨c, hcg, i, hi, hclr, rfl⟩
    rw [hgcount] at hcg
    have hfree := (hr.groups c hcg).bits.2 i hi hclr
    refine hfree ?_
    rcases hinode _ hn with hres | hused
    · exact .inl hres
    · exact .inr (.inr hused)

end

end

/-! ### Every run on a repaired volume -/

/-- What the passes have found of the blocks when some inodes have been cleared. -/
def foundOf (lay : Layout) (d : Readings) (a : Replies) (is : List ℕ) (around : ℤ → Bool) : Found where
  blockmap := (clearAll lay d is (pass1b lay d (pass1 lay d a))).blockmap
  around := around
  statemap := (clearAll lay d is (pass1b lay d (pass1 lay d a))).statemap

/-- **The allocator on a repaired volume**: where the claims are kept right and the last pass repairs the
volume, whatever is allocated and freed after the mount, the counters agree, nothing is handed out twice,
and no block of the file system itself or of a remaining inode, and no such inode, before it was given
back. -/
theorem repaired_volume_runs (env : Env) (sb : SbImage) (s : St) (h : setup env sb = some s)
    (v : GroupTable) (lay : Layout) (hlay : LayoutOf s.sblock v lay) (d : Readings) (a : Replies)
    (hw : Within lay d) (hm : ClaimsMatch lay d a) (is : List ℕ) (hnodup : is.Nodup)
    (his : is ⊆ lay.used d a) (around : ℤ → Bool)
    (hr : Repairable s.sblock v (foundOf lay d a is around).blockmap (foundOf lay d a is around).statemap)
    (hpos : 0 < s.sblock.gcount) (hfirst : s.sblock.e2fs_first_dblock.toNat ≤ 1)
    (hbytes : NBBY ∣ s.sblock.e2fs_ipg.toNat) (old : Before s.sblock)
    (hok : ext2CheckSbCompat s.sblock.toSuperblock false = 0) :
    Safe (s.sblock.toSuperblock.mounted false hok)
      (InUse lay d a is (foundOf lay d a is around).statemap)
      (repairedSys s.sblock v (pass5 s.sblock v (foundOf lay d a is around) old)) := by
  obtain ⟨hgood, hfpg⟩ := setup_checks h
  have hsize : s.sblock.bsize = 1024 ∨ s.sblock.bsize = 2048 ∨ s.sblock.bsize = 4096 := by
    unfold SbImage.Bad at hgood
    exact DivState.bsize_cases (by omega)
  have hc := hr.countable
  have hipg : 0 < s.sblock.e2fs_ipg.toNat := hlay.ipg ▸ lay.ipg_pos
  have hright := hr.right hsize around old
  have hmap : ∀ b, (foundOf lay d a is around).blockmap b = true ↔
      b ∈ lay.metadata ∨ ∃ i ∈ lay.used d a, i ∉ is ∧ b ∈ lay.refs d i := blockmap_right hw hm hnodup his
  have hzero := (hmap 0).2 (.inl (zero_mem_metadata hlay hpos hfirst))
  refine safe_of_consistent (hc.geometry hok hpos hsize hfirst hfpg hipg hbytes).2 (fun c => ?_)
    fun c n hn => ?_
  · exact ⟨hright.counters hok hc hpos hsize hfirst hfpg hipg hbytes hzero c, fun f hf => by cases hf⟩
  · exact hright.inUse hok hc hpos hsize hfirst hfpg hipg hbytes (fun b hb => (hmap b).2 hb)
      (fun ino hino => hino) c hn

/-- The layout of the volume of one group with 64 inodes. -/
def oneGroupLayout : Layout := { smallLayout with
  toVolume := oneGroupTable
  maxfsblock := 1024
  itpg := 8 }

/-- The inodes 11 and 12 share a block; the inode 12 is cleared. -/
def sharingFound : Found := foundOf oneGroupLayout sharing yesAll [12] fun _ => false

theorem oneGroup_repairable : Repairable oneGroup bitmapTable sharingFound.blockmap sharingFound.statemap := by
  have hg : oneGroup.gcount = 1 := by decide +kernel
  have hone : ∀ c < oneGroup.gcount, c = 0 := fun c hc => by omega
  have hipg : oneGroup.e2fs_ipg.toNat = 64 := rfl
  refine ⟨⟨by decide +kernel, by decide +kernel, fun c hc => ?_, fun hc => ?_,
    fun c hc i hi hb => ?_, fun c hc i hi hlt => ?_, fun c hc i hi hres => ?_⟩, ⟨fun c hc => ?_,
    fun c hc c' hc' _ => ?_, fun c hc c' hc' _ => ?_, fun c hc c' hc' heq => ?_, fun heq => ?_⟩⟩
  · rw [hone c hc]
    decide +kernel
  · exact absurd hc (by decide +kernel)
  · rw [hipg] at hi hb
    unfold NBBY at hb
    omega
  · have hcount : oneGroup.e2fs_icount.toNat = 64 := rfl
    rw [hone c hc] at hlt
    unfold SbImage.inodeOf at hlt
    omega
  · have hdirs : ∀ i < 64, (sharingFound.statemap (oneGroup.inodeOf 0 i)).isDir = false := by
      decide +kernel
    rw [hone c hc]
    exact hdirs i (hipg ▸ hi)
  · rw [hone c hc]
    exact ⟨⟨by decide +kernel, by decide +kernel⟩, by decide +kernel, by decide +kernel⟩
  · rw [hone c hc, hone c' hc']
  · rw [hone c hc, hone c' hc']
  · have hne : (4 : ℕ) = 3 := heq
    omega
  · exact absurd heq (by decide)

theorem repaired_volume_runs_sharing : ∃ hok, Safe (oneGroup.toSuperblock.mounted false hok)
    (InUse oneGroupLayout sharing yesAll [12] sharingFound.statemap)
    (repairedSys oneGroup bitmapTable (pass5 oneGroup bitmapTable sharingFound
      ⟨fun _ _ => false, fun _ => false, fun _ => ⟨0, 0, 0⟩, 0, 0⟩)) := by
  have hset : (setup preenOneGroup oneGroup).map St.sblock = some oneGroup := by decide +kernel
  obtain ⟨s, hs, hsb⟩ := Option.map_eq_some_iff.1 hset
  have hsettled : Settled oneGroupLayout sharing yesAll :=
    ⟨fun _ _ => rfl, fun _ _ => rfl, by decide +kernel, by decide +kernel⟩
  have hlay : LayoutOf oneGroup bitmapTable oneGroupLayout :=
    ⟨rfl, rfl, rfl, rfl, by decide +kernel, rfl, rfl, rfl⟩
  have hrepair := oneGroup_repairable
  have hok : ext2CheckSbCompat oneGroup.toSuperblock false = 0 := by decide +kernel
  have hpos : 0 < oneGroup.gcount := by decide +kernel
  have hfirst : oneGroup.e2fs_first_dblock.toNat ≤ 1 := le_refl 1
  have hbytes : NBBY ∣ oneGroup.e2fs_ipg.toNat := by decide
  rw [← hsb] at hlay hrepair hok hpos hfirst hbytes ⊢
  exact ⟨hok, repaired_volume_runs preenOneGroup oneGroup s hs bitmapTable oneGroupLayout hlay sharing yesAll
    (within_of_length (by decide +kernel)) hsettled.claimsMatch [12] (List.nodup_singleton 12)
    (by decide +kernel) (fun _ => false) hrepair hpos hfirst hbytes _ hok⟩

end Ext2fs.Fsck
