import Ext2fs.AllocRuns
import Ext2fs.Newfs.MapsRight
import Ext2fs.Newfs.Mounted

/-!
# The allocator on a new volume

`newfs_ext2fs` writes a volume, the driver mounts it, and from then on the allocator hands out what is free
on it.

* `mountedSys` — what the driver finds on the volume;
* `Occupied` — what is not to be handed out: the metadata, and the first inodes with their blocks;
* `Fresh.counters`, `Fresh.occupied` — the volume is one that the allocator relies on, and what is occupied
  on it is in use;
* `new_volume_runs` — **over every run on a new volume** nothing is handed out twice, and nothing that is
  occupied unless it was given back before.
-/

namespace Ext2fs.Newfs

open GroupMap Allocator NumberPool Fsck

/-! ### The mounted volume -/

/-- What the driver finds of a group: its counters in the descriptor, its bitmaps where this says. -/
def groupAt (raw : Data → Bitmap) (vol : Volume) (contigsumsize : ℕ) (d : Desc) : Group where
  bbmap := (vol.disk d.b_bitmap).map raw
  ibmap := (vol.disk d.i_bitmap).map raw
  nbfree := d.nbfree
  nifree := d.nifree
  ndirs := d.ndirs
  cs := { init := false, sum := 0, maxcluster := contigsumsize }

/-- The mounted volume, before the first search; the totals are those of the superblock. -/
def mountedSys (raw : Data → Bitmap) (vol : Volume) (contigsumsize : ℕ) (mount : SbData (List Desc)) :
    AllocSys where
  gd c := groupAt raw vol contigsumsize ((mountedGd mount c).getD ⟨⟨0, 0, 0, 0, 0⟩, 0⟩)
  sb := ⟨vol.fbcount, vol.ficount, ((vol.gd.map fun d => d.ndirs).sum)⟩
  flights := []

/-- What is not to be handed out: the blocks before the groups, the metadata of the groups, and the first
inodes with their blocks. -/
def Occupied (p : Params) (sb : Sb) (vol : Volume) : Number → Prop
  | .block b => b < sb.first_dblock ∨ (∃ c < sb.gcount, sb.base c ≤ b ∧ b < sb.base c + overhead p sb c) ∨
      ∃ ino k, vol.Owns p sb ino k b
  | .inode ino => ino ≤ FIRSTINO

section

variable {raw : Data → Bitmap} {p : Params} {sb : Sb} {m : Made} {vol : Volume} {fs : MExt2fs}
  {mount : SbData (List Desc)} {contigsumsize : ℕ}

/-- The volume is mounted with the fields that were written. -/
structure MountedAs (sb : Sb) (fs : MExt2fs) : Prop where
  bcount : fs.bcount = sb.bcount
  first_dblock : fs.firstDblock = sb.first_dblock
  bpg : fs.bpg = sb.bpg
  fpg : fs.fpg = sb.bpg
  ipg : fs.ipg = sb.ipg
  writable : fs.ronly = false

/-- The first free bit of a group. -/
def firstFree (p : Params) (sb : Sb) (m : Made) (c : ℕ) : ℕ :=
  if c = 0 then overhead p sb 0 + m.given else overhead p sb c

/-- The first free inode of a group, as a bit. -/
def firstInode (c : ℕ) : ℕ := if c = 0 then FIRSTINO else 0

/-- **The bitmaps of a new volume**: behind what is occupied, everything is free. -/
structure Fresh (p : Params) (sb : Sb) (m : Made) (gd : ℕ → Group) : Prop where
  blocks : ∀ c < sb.gcount, ∀ i < sb.bpg,
    (gd c).bbmap.isclr i = decide (firstFree p sb m c ≤ i ∧ i < sb.size c)
  inodes : ∀ c < sb.gcount, ∀ i < sb.ipg, (gd c).ibmap.isclr i = decide (firstInode c ≤ i)
  nbfree : ∀ c < sb.gcount, (gd c).nbfree = sb.size c - firstFree p sb m c
  nifree : ∀ c < sb.gcount, (gd c).nifree = sb.ipg - firstInode c

theorem mountedSys_fresh (h : Ready p sb) (hf : Filled p sb m) (hs : Shows p sb m vol)
    (hbytes : NBBY ∣ sb.ipg) (hnames : NamesRight p sb vol.gd mount) :
    Fresh p sb m (mountedSys raw vol contigsumsize mount).gd := by
  have hbpg : sb.bpg = 8 * p.bsize := h.bpg.trans (Nat.mul_comm ..)
  have hipg : NBBY * (sb.ipg / NBBY) = sb.ipg := Nat.mul_div_cancel' hbytes
  have hinodes := h.inodes
  have hgroup : ∀ c < sb.gcount, (mountedSys raw vol contigsumsize mount).gd c =
      groupAt raw vol contigsumsize (if c = 0 then m.desc p sb else descOf p sb c) := by
    intro c hc
    show groupAt raw vol contigsumsize ((mountedGd mount c).getD _) = _
    rw [hnames.groups c hc, hs.desc h hc]
    rfl
  refine ⟨fun c hc i hi => ?_, fun c hc i hi => ?_, fun c hc => ?_, fun c hc => ?_⟩
  all_goals
    rw [hgroup c hc]
    by_cases h0 : c = 0
  · rw [if_pos h0, h0, firstFree, if_pos rfl]
    obtain ⟨map, hmap, hclr⟩ := hs.b_bitmap
    show ((vol.disk (bitmapAt p sb 0)).map raw).isclr i = _
    rw [hmap]
    exact hclr i (by omega)
  · rw [if_neg h0, firstFree, if_neg h0]
    show ((vol.disk (bitmapAt p sb c)).map raw).isclr i = _
    rw [(hs.others c (by omega) hc).b_bitmap]
    exact isclr_blockMap h.toApart hc (by omega)
  · rw [if_pos h0, h0, firstInode, if_pos rfl]
    obtain ⟨map, hmap, hclr⟩ := hs.i_bitmap
    show ((vol.disk (bitmapAt p sb 0 + 1)).map raw).isclr i = _
    rw [hmap]
    refine (hclr i (by unfold NBBY at *; omega)).trans (decide_eq_decide.2 ?_)
    rw [hf.lost, hipg]
    unfold FIRSTINO
    exact ⟨fun hb => hb.1, fun hb => ⟨hb, hi⟩⟩
  · rw [if_neg h0, firstInode, if_neg h0]
    show ((vol.disk (bitmapAt p sb c + 1)).map raw).isclr i = _
    rw [(hs.others c (by omega) hc).i_bitmap]
    refine (isclr_inodeMap h.inodes (by unfold NBBY at *; omega)).trans (decide_eq_decide.2 ?_)
    rw [hipg]
    exact ⟨fun _ => Nat.zero_le _, fun _ => ⟨fun hz => absurd hz h0, hi⟩⟩
  · rw [if_pos h0, h0, firstFree, if_pos rfl]
    exact Nat.sub_sub ..
  · rw [if_neg h0, firstFree, if_neg h0]
    rfl
  · rw [if_pos h0, h0, firstInode, if_pos rfl]
    show sb.ipg - (FIRSTINO - 1) - m.lost.toNat = _
    rw [hf.lost]
    rfl
  · rw [if_neg h0, firstInode, if_neg h0]
    show (if c = 0 then sb.ipg - (FIRSTINO - 1) else sb.ipg) = _
    rw [if_neg h0]
    rfl

/-! ### The counters -/

/-- The clear bits of an interval. -/
theorem clearBits_interval {map : Bitmap} {a e n : ℕ} (he : e ≤ n)
    (hclr : ∀ i < n, map.isclr i = decide (a ≤ i ∧ i < e)) : clearBits map n = e - a := by
  have hset : (Finset.range n).filter (fun i => map.isclr i = true) = Finset.Ico a e := by
    ext i
    rw [Finset.mem_filter, Finset.mem_range, Finset.mem_Ico]
    constructor
    · rintro ⟨hi, hc⟩
      rw [hclr i hi, decide_eq_true_eq] at hc
      exact hc
    · intro hi
      have hin : i < n := by omega
      exact ⟨hin, (hclr i hin).trans (decide_eq_true hi)⟩
  rw [clearBits, hset, Nat.card_Ico]

theorem sum_range_map (f : ℕ → ℕ) (n : ℕ) : ((List.range n).map f).sum = ∑ c ∈ Finset.range n, f c := by
  induction n with
  | zero => rfl
  | succ n ih =>
    rw [List.range_succ, List.map_append, List.sum_append, ih, Finset.sum_range_succ, List.map_singleton,
      List.sum_singleton]

/-- Where a group of the driver is. -/
theorem MountedAs.blockAt (hfs : MountedAs sb fs) (c i : ℕ) : blockAt fs c i = sb.base c + i := by
  unfold Allocator.blockAt Sb.base
  rw [hfs.fpg, hfs.first_dblock, Nat.mul_comm c, Nat.add_comm (sb.bpg * c)]

theorem Apart.gcount_eq (h : Apart p sb) (hfs : MountedAs sb fs) (hsize : sb.bcount ≤ 2 ^ 31) :
    fs.gcount = sb.gcount := by
  have hlast := h.overhead_le (sb.gcount - 1) (by have := h.gcount; omega)
  have hmeta : 2 ≤ overhead p sb (sb.gcount - 1) := by
    unfold overhead
    omega
  have hle := h.lastcg_le
  have hbcount := h.last
  have hpos : 0 < sb.bpg := hfs.bpg ▸ fs.bpg_pos
  have hbound := h.sizes.bpg_le
  have hbpg := h.bpg
  unfold Sb.size at hlast
  rw [if_pos rfl] at hlast
  unfold Sb.base at hbcount
  obtain ⟨n, hn⟩ : ∃ n, sb.gcount = n + 1 := ⟨sb.gcount - 1, by have := h.gcount; omega⟩
  rw [hn, Nat.add_sub_cancel] at hbcount hlast hmeta
  have hcast : ((fs.bcount : ℤ) - fs.firstDblock + fs.bpg - 1) =
      ((sb.bpg * n + sb.blocks_lastcg + sb.bpg - 1 : ℕ) : ℤ) := by
    rw [hfs.bcount, hfs.first_dblock, hfs.bpg, hbcount]
    omega
  rw [MExt2fs.gcount, hcast, u32_of_lt (by omega), hfs.bpg, hn]
  rw [show sb.bpg * n + sb.blocks_lastcg + sb.bpg - 1 = sb.bpg * n + (sb.blocks_lastcg - 1 + sb.bpg) by omega,
    Nat.mul_add_div hpos, Nat.add_div_right _ hpos, Nat.div_eq_of_lt (by omega)]

/-- **What the allocator relies on** is so on a new volume. -/
theorem Ready.geometry (h : Ready p sb) (hfs : MountedAs sb fs) (hsize : sb.bcount ≤ 2 ^ 31)
    (hbytes : NBBY ∣ sb.ipg) : Allocator.Geometry fs := by
  have hgcount := h.toApart.gcount_eq hfs hsize
  have hbound := h.sizes.bpg_le
  have hbpg := h.bpg
  have hfirst : sb.first_dblock ≤ 1 := h.first_dblock ▸ first_le
  have hicount := h.icount
  have hwhole := h.firstino
  have htable := h.tables 0 h.gcount
  refine ⟨hfs.bpg.trans hfs.fpg.symm, ?_, ?_, ?_, ?_, ?_, ?_, ?_, ?_, ?_, hfs.writable⟩
  · rw [hfs.fpg, hbpg]
    exact Dvd.intro_left _ rfl
  · rw [hfs.fpg]
    omega
  · exact hfs.ipg ▸ hbytes
  · rw [hfs.ipg]
    unfold FIRSTINO at hwhole
    omega
  · exact hfs.ipg ▸ h.ipg_lt
  · exact hfs.first_dblock ▸ hfirst
  · rw [hfs.first_dblock, hfs.bcount]
    unfold Sb.base overhead at htable
    omega
  · exact hfs.bcount ▸ hsize
  · rw [hgcount, hfs.ipg, Nat.mul_comm]
    exact hicount

theorem Fresh.counters (h : Ready p sb) (hf : Filled p sb m) (hs : Shows p sb m vol)
    (hfs : MountedAs sb fs) (hsize : sb.bcount ≤ 2 ^ 31) {gd : ℕ → Group} (hfresh : Fresh p sb m gd)
    (totalDir : ℕ) : CountersOk fs gd ⟨vol.fbcount, vol.ficount, totalDir⟩ := by
  have hgcount := h.toApart.gcount_eq hfs hsize
  have hfirst : ∀ c, 0 < firstFree p sb m c := fun c => by
    unfold firstFree overhead
    split <;> omega
  have hall : ∀ f : Desc → ℕ, (vol.gd.map f).sum =
      ∑ c ∈ Finset.range sb.gcount, f (if c = 0 then m.desc p sb else descOf p sb c) := by
    intro f
    rw [← sum_range_map]
    congr 1
    refine List.ext_getElem? fun c => ?_
    rw [List.getElem?_map, List.getElem?_map]
    by_cases hc : c < sb.gcount
    · rw [hs.desc h hc, List.getElem?_range hc]
      rfl
    · have hlen : vol.gd.length = sb.gcount := by rw [hs.gd, List.length_set, List.length_map, List.length_range]
      rw [List.getElem?_eq_none (by omega), List.getElem?_eq_none (by rw [List.length_range]; omega)]
      rfl
  have htotals := hs.totals h hf.room
  rw [hall, hall] at htotals
  refine ⟨fun c hc => ?_, ?_, ?_⟩
  · rw [hgcount] at hc
    have hin := h.size_le c
    refine ⟨?_, ?_, fun i hi hclr => ?_⟩
    · rw [hfresh.nbfree c hc, hfs.fpg, clearBits_interval hin (hfresh.blocks c hc)]
    · rw [hfresh.nifree c hc, hfs.ipg]
      refine (clearBits_interval le_rfl fun i hi => ?_).symm
      rw [hfresh.inodes c hc i hi]
      exact decide_eq_decide.2 (and_iff_left hi).symm
    · rw [hfs.fpg] at hi
      rw [hfresh.blocks c hc i hi, decide_eq_true_eq] at hclr
      have hend := h.toApart.groupEnd_eq hc
      have hlast : sb.groupEnd c ≤ sb.bcount := Nat.min_le_right ..
      have hpos := hfirst c
      rw [hfs.blockAt, hfs.bcount]
      omega
  · refine htotals.1.trans ?_
    rw [hgcount]
    refine Finset.sum_congr rfl fun c hc => ?_
    rw [hfresh.nbfree c (Finset.mem_range.1 hc), firstFree]
    by_cases h0 : c = 0
    · rw [if_pos h0, if_pos h0, h0]
      exact (Nat.sub_sub ..)
    · rw [if_neg h0, if_neg h0]
      rfl
  · refine htotals.2.trans ?_
    rw [hgcount]
    refine Finset.sum_congr rfl fun c hc => ?_
    rw [hfresh.nifree c (Finset.mem_range.1 hc), firstInode]
    by_cases h0 : c = 0
    · rw [if_pos h0, if_pos h0]
      show sb.ipg - (FIRSTINO - 1) - m.lost.toNat = _
      rw [hf.lost]
      rfl
    · rw [if_neg h0, if_neg h0]
      show (if c = 0 then sb.ipg - (FIRSTINO - 1) else sb.ipg) = _
      rw [if_neg h0]
      rfl

/-- **Nothing that is occupied is free.** -/
theorem Fresh.occupied (h : Ready p sb) (hf : Filled p sb m) (hs : Shows p sb m vol)
    (hfs : MountedAs sb fs) (hsize : sb.bcount ≤ 2 ^ 31) {gd : ℕ → Group} (hfresh : Fresh p sb m gd)
    {n : Number} (hn : Occupied p sb vol n) : n ∉ free fs gd := by
  have hgcount := h.toApart.gcount_eq hfs hsize
  cases n with
  | block b =>
    rintro ⟨c, hc, i, hi, hclr, rfl⟩
    rw [hgcount] at hc
    rw [hfs.fpg] at hi
    rw [hfresh.blocks c hc i hi, decide_eq_true_eq] at hclr
    have hbase : sb.first_dblock ≤ sb.base c := Nat.le_add_right ..
    have hfirst : overhead p sb c ≤ firstFree p sb m c := by
      unfold firstFree
      split
      next h0 =>
        rw [h0]
        omega
      next => exact le_rfl
    rw [Occupied, hfs.blockAt] at hn
    rcases hn with hlow | ⟨c', hc', hge, hlt⟩ | ⟨ino, k, howns⟩
    · omega
    · have hover := (h.overhead_le c' hc').trans (h.size_le c')
      rcases Nat.lt_trichotomy c c' with hcc | rfl | hcc
      · have hmono := sb.base_mono (Nat.succ_le_of_lt hcc)
        have hsucc := sb.base_succ c
        rw [Nat.succ_eq_add_one] at hmono
        omega
      · omega
      · have hmono := sb.base_mono (Nat.succ_le_of_lt hcc)
        have hsucc := sb.base_succ c'
        rw [Nat.succ_eq_add_one] at hmono
        omega
    · obtain ⟨j, hj, hb, -⟩ := hf.owns h hs howns
      have hroom := hf.room
      have hsize0 := h.size_le 0
      unfold dataBlock at hb
      rcases Nat.eq_zero_or_pos c with rfl | hpos
      · rw [firstFree, if_pos rfl] at hclr
        omega
      · have hmono := sb.base_mono (Nat.succ_le_of_lt hpos)
        have hsucc := sb.base_succ 0
        rw [Nat.zero_add] at hsucc
        rw [Nat.succ_eq_add_one, Nat.zero_add] at hmono
        omega
  | inode ino =>
    rintro ⟨c, hc, i, hi, hclr, rfl⟩
    rw [hgcount] at hc
    rw [hfs.ipg] at hi
    rw [hfresh.inodes c hc i hi, decide_eq_true_eq, firstInode] at hclr
    have hfirst := h.firstino
    rw [Occupied, inodeAt, hfs.ipg] at hn
    rcases Nat.eq_zero_or_pos c with rfl | hpos
    · rw [if_pos rfl] at hclr
      omega
    · have hmul : sb.ipg ≤ c * sb.ipg := Nat.le_mul_of_pos_left _ hpos
      omega

/-- The fields of the superblock come back as they were written. -/
theorem mounted_as (h : Ready p sb)
    (hok : ext2CheckSbCompat (superblockOf p sb) false = 0) :
    MountedAs sb ((superblockOf p sb).mounted false hok) := by
  have hbpg := h.sizes.bpg_le
  have heq := h.bpg
  have hfirst : sb.first_dblock ≤ 1 := h.first_dblock ▸ first_le
  have hipg := h.ipg_lt
  exact ⟨ofNat_toNat h.bcount, ofNat_toNat (by omega), ofNat_toNat (by omega), ofNat_toNat (by omega),
    ofNat_toNat (by omega), rfl⟩

end

/-! ### Every run on a new volume -/

/-- **The allocator on a new volume**: the driver mounts what `newfs_ext2fs` wrote, if the inodes of a group
fill whole bytes, the sectors are not too long and the block numbers fit `int32_t`, and whatever is
allocated and freed from then on, the counters agree, nothing is handed out twice, and none of the metadata
and nothing of the first inodes before it was given back. -/
theorem new_volume_runs (raw : Data → Bitmap) (o : Options) (hv : o.Valid) (ha : Accepts (main o).value)
    (hr : LayoutRight o) (hbytes : NBBY ∣ (newfs o).value.1.ipg) (hsec : o.sectorsize ≤ 1024)
    (hsize : (newfs o).value.1.bcount ≤ 2 ^ 31) (vol : Volume) (hrun : image raw o = (some (), vol))
    (other : ℤ → List Desc) :
    ∃ (hok : ext2CheckSbCompat (superblockOf (main o).value (newfs o).value.1) false = 0)
      (mount : SbData (List Desc)),
      computeSbData (fun dev => .ok (descsAt (main o).value (newfs o).value.1 vol.gd other dev))
        (superblockOf (main o).value (newfs o).value.1) = .ok mount ∧
      Safe ((superblockOf (main o).value (newfs o).value.1).mounted false hok)
        (Occupied (main o).value (newfs o).value.1 vol)
        fun contigsumsize => mountedSys raw vol contigsumsize mount := by
  obtain ⟨hready, m, hfill, hs, -⟩ := image_leaves hv ha hr hrun
  have hroom : u32 ((newfs o).value.1.bcount - (newfs o).value.1.first_dblock) + (newfs o).value.1.bpg ≤
      2 ^ 32 := by
    have hfirst : (newfs o).value.1.first_dblock ≤ 1 := hready.first_dblock ▸ first_le
    have hbound := hready.sizes.bpg_le
    have hbpg := hready.bpg
    have htable := hready.tables 0 hready.gcount
    unfold Sb.base overhead at htable
    rw [← Nat.cast_sub (by omega), u32_of_lt (by omega)]
    omega
  have hmounted := (mounted_right_iff o hv ha).2 ⟨hsec, hroom⟩
  have haddressed : Addressed (newfs o).value.2 vol.gd := by
    have hall : Addressed (newfs o).value.2 (image raw o).2.gd := make_addressed
    rwa [hrun] at hall
  obtain ⟨mount, hmount, -, hnames⟩ := hmounted.computed vol.gd other haddressed
  have hok := hmounted.accepted
  have hfs := mounted_as hready hok
  have hfresh : ∀ c, Fresh (main o).value (newfs o).value.1 m (mountedSys raw vol c mount).gd :=
    fun c => mountedSys_fresh hready hfill hs hbytes hnames
  refine ⟨hok, mount, hmount, safe_of_consistent (hready.geometry hfs hsize hbytes) (fun c => ?_) fun c n hn =>
    (hfresh c).occupied hready hfill hs hfs hsize hn⟩
  exact ⟨(hfresh c).counters hready hfill hs hfs hsize _, fun f hf => by cases hf⟩

/-- The allocator on the volume of 40 blocks. -/
theorem new_volume_runs_tiny : ∃ hok mount,
    computeSbData (fun dev => .ok (descsAt (main (tinyImage 24)).value (newfs (tinyImage 24)).value.1
      (image (fun _ _ => 0) (tinyImage 24)).2.gd (fun _ => []) dev))
        (superblockOf (main (tinyImage 24)).value (newfs (tinyImage 24)).value.1) = .ok mount ∧
      Safe ((superblockOf (main (tinyImage 24)).value (newfs (tinyImage 24)).value.1).mounted false hok)
        (Occupied (main (tinyImage 24)).value (newfs (tinyImage 24)).value.1
          (image (fun _ _ => 0) (tinyImage 24)).2)
        fun contigsumsize =>
          mountedSys (fun _ _ => 0) (image (fun _ _ => 0) (tinyImage 24)).2 contigsumsize mount := by
  obtain ⟨hv, ha⟩ := tinyImage_accepted (.inl rfl)
  have hdone : (image (fun _ _ => 0) (tinyImage 24)).1 = some () := by decide +kernel
  exact new_volume_runs _ (tinyImage 24) hv ha (tinyImage_layout (.inl rfl)) (by decide +kernel)
    (by decide) (by decide +kernel) _ (run_eq hdone) _

end Ext2fs.Newfs
