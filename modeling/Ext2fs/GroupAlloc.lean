import Ext2fs.GroupMap

/-!
# Taking a block or an inode of a group

What `ext2_alloccg` and `ext2_nodealloccg` do with a group whose counter agrees with its bitmap, for any
preference.  A preference below `e2fs_first_dblock` passes for one of group 0, because the division of
`dtog` rounds towards zero, and becomes the number of a bit in front of the map.  The scan for eight free
blocks stops `start` bytes before the end of the map.

* `searchFrom_spec`, `searchInode_spec` — a free bit is found where there is one;
* `alloccg_nodealloccg_right_iff` — **the block and the inode that are taken**;
* `eight_iff` — when a block is the first of eight free ones.
-/

namespace Ext2fs

namespace GroupMap

open MaxRuns

/-! ### The places where a search starts -/

section Start

variable {fs : MExt2fs} {map : Bitmap} {cg s i n : ℕ} {bpref : ℤ}

theorem tdiv_NBBY_lt {x : ℤ} (hn : 0 < n) (h : x < n) : x.tdiv NBBY < (howmanyBytes n : ℕ) := by
  unfold howmanyBytes NBBY
  rcases le_or_gt 0 x with hx | hx
  · rw [Int.tdiv_eq_ediv_of_nonneg hx]
    omega
  · obtain ⟨k, rfl⟩ : ∃ k : ℕ, x = -k := ⟨x.natAbs, by omega⟩
    rw [Int.neg_tdiv, Int.natCast_tdiv_eq_ediv]
    omega

/-- A search for a block starts in the map, or in front of it. -/
theorem startByte_lt (hsize : fs.bpg = fs.fpg) (bpref : ℤ) :
    startByte fs bpref < (howmanyBytes fs.fpg : ℕ) := by
  have hpos : 0 < fs.fpg := hsize ▸ fs.bpg_pos
  unfold startByte
  split
  · refine tdiv_NBBY_lt hpos ?_
    rw [← hsize]
    exact Int.tmod_lt_of_pos _ (Int.natCast_pos.2 fs.bpg_pos)
  · unfold howmanyBytes NBBY
    omega

theorem mapsearch_eq (hs : startByte fs bpref = s) (hlt : s < howmanyBytes fs.fpg) :
    ext2Mapsearch fs map bpref = searchBytes map s (howmanyBytes fs.fpg - s) := by
  have hnot : ¬((s : ℤ) < 0 ∨ (howmanyBytes fs.fpg : ℤ) - s < 0) := by omega
  simp only [ext2Mapsearch, hs, hnot, if_false]
  congr 1
  omega

theorem searchFrom_eq (hs : startByte fs bpref = s) (hlt : s < howmanyBytes fs.fpg) :
    searchFrom fs map bpref =
      match eightPasses map (howmanyBytes fs.fpg) s with
      | some bno => .bit bno
      | none => searchBytes map s (howmanyBytes fs.fpg - s) := by
  simp only [searchFrom, hs, Int.toNat_natCast, mapsearch_eq hs hlt]
  exact if_neg (by omega)

theorem searchFrom_outside (hs : startByte fs bpref < 0) : searchFrom fs map bpref = .outside :=
  if_pos hs

/-- The bits of all bytes, where the size of the group is a multiple of 8. -/
theorem howmanyBytes_of_dvd (h : NBBY ∣ n) : NBBY * howmanyBytes n = n := by
  unfold howmanyBytes NBBY at *
  omega

/-- **A free block is found where there is one**, unless the search starts in front of the map. -/
theorem searchFrom_spec (hsize : fs.bpg = fs.fpg) (h8 : NBBY ∣ fs.fpg)
    (hs : 0 ≤ startByte fs bpref) (hfree : ∃ j < fs.fpg, map.isclr j = true) :
    ∃ i < fs.fpg, map.isclr i = true ∧ searchFrom fs map bpref = .bit i := by
  obtain ⟨s, hs⟩ := Int.eq_ofNat_of_zero_le hs
  have hlt : s < howmanyBytes fs.fpg := by
    have := startByte_lt hsize bpref
    omega
  have hall := howmanyBytes_of_dvd h8
  rw [searchFrom_eq hs hlt]
  obtain ⟨hsome, -⟩ := @eightPasses_spec map _ s hlt.le
  cases hpass : eightPasses map (howmanyBytes fs.fpg) s with
  | some bno =>
    obtain ⟨height, hle, -⟩ := hsome bno hpass
    have hclear := height 0 (by decide)
    refine ⟨bno, ?_, hclear, rfl⟩
    unfold NBBY at *
    omega
  | none =>
    rcases searchBytes_spec map s (howmanyBytes fs.fpg - s) with ⟨bno, heq, hclear, hwhere⟩ | ⟨-, hnone⟩
    · refine ⟨bno, ?_, hclear, heq⟩
      unfold NBBY at *
      omega
    · obtain ⟨j, hj, hclear⟩ := hfree
      rw [hnone j (by rwa [Nat.add_sub_cancel' hlt.le, hall])] at hclear
      cases hclear

end Start

/-! ### The block that is taken -/

/-- The places that `ext2_alloccg` computes from a preference are not in front of the map. -/
def InMap (fs : MExt2fs) (map : Bitmap) (cg : ℕ) (bpref : ℤ) : Prop :=
  fs.dtog64 bpref = cg → bpref ≠ 0 → 0 ≤ fs.dtogd64 bpref ∧
    (map.isset (fs.dtogd64 bpref).toNat = true → 0 ≤ startByte fs (fs.dtogd64 bpref))

/-- The counter of the free blocks agrees with the bitmap and was not 0 on entry. -/
structure BlocksAgree (fs : MExt2fs) (before : ℕ) (gd : Group) : Prop where
  size : fs.bpg = fs.fpg
  bytes : NBBY ∣ fs.fpg
  entry : before ≠ 0
  pos : 0 < gd.nbfree
  count : gd.nbfree = ((Finset.range fs.fpg).filter fun i => gd.bbmap.isclr i = true).card

/-- A free block of the group is taken: its bit alone is set, and the number that is returned is that of
the bit. -/
def TakesBlock (fs : MExt2fs) (contigsumsize cg : ℕ) (bpref : ℤ) (before : ℕ) (gd : Group)
    (sb : Totals) : Prop :=
  ∃ i < fs.fpg, gd.bbmap.isclr i = true ∧ ∃ number gd' sb',
    ext2Alloccg fs contigsumsize cg bpref before true gd sb = .ret number gd' sb' ∧
      gd'.bbmap.isclr = Function.update gd.bbmap.isclr i false ∧
      fs.dtog64 number = cg ∧ fs.dtogd64 number = i

section Block

variable {fs : MExt2fs} {map : Bitmap} {c cg i before : ℕ} {bpref : ℤ} {gd : Group} {sb : Totals}

theorem searchBlock_spec (hsize : fs.bpg = fs.fpg) (h8 : NBBY ∣ fs.fpg) (hin : InMap fs map cg bpref)
    (hfree : ∃ j < fs.fpg, map.isclr j = true) :
    ∃ i < fs.fpg, map.isclr i = true ∧ searchBlock fs map cg bpref = .bit i := by
  have hzero : 0 ≤ startByte fs 0 := by simp [startByte]
  unfold searchBlock
  by_cases hcg : fs.dtog64 bpref = cg
  · simp only [hcg, ne_eq, not_true_eq_false, if_false]
    by_cases hne : bpref = 0
    · rw [if_neg (not_not.2 hne), hne]
      exact searchFrom_spec hsize h8 hzero hfree
    · obtain ⟨hge, hstart⟩ := hin hcg hne
      rw [if_pos hne, if_neg (by omega)]
      cases hclr : map.isclr (fs.dtogd64 bpref).toNat with
      | true =>
        have hlt : fs.dtogd64 bpref < fs.bpg := Int.tmod_lt_of_pos _ (Int.natCast_pos.2 fs.bpg_pos)
        exact ⟨_, by omega, hclr, rfl⟩
      | false =>
        refine searchFrom_spec hsize h8 (hstart ?_) hfree
        rw [Bitmap.isset_eq_not, hclr]
        rfl
  · simp only [hcg, ne_eq, not_false_eq_true, if_true, not_true_eq_false, if_false]
    exact searchFrom_spec hsize h8 hzero hfree

theorem searchBlock_outside (h : ¬InMap fs map cg bpref) : searchBlock fs map cg bpref = .outside := by
  simp only [InMap, Classical.not_imp] at h
  obtain ⟨hcg, hne, hout⟩ := h
  simp only [searchBlock, hcg, ne_eq, not_true_eq_false, if_false, hne, not_false_eq_true, if_true]
  split
  next hneg => rfl
  next hge =>
    have hstart : map.isset (fs.dtogd64 bpref).toNat = true ∧ startByte fs (fs.dtogd64 bpref) < 0 := by
      by_contra h
      exact hout ⟨by omega, fun hset => by
        by_contra hlt
        exact h ⟨hset, by omega⟩⟩
    rw [Bitmap.isset_eq_not, Bool.not_eq_true'] at hstart
    rw [hstart.1]
    exact searchFrom_outside hstart.2

theorem exists_free (h : BlocksAgree fs before gd) : ∃ j < fs.fpg, gd.bbmap.isclr j = true := by
  have hpos := h.pos
  rw [h.count, Finset.card_pos] at hpos
  obtain ⟨j, hj⟩ := hpos
  rw [Finset.mem_filter, Finset.mem_range] at hj
  exact ⟨j, hj⟩

/-- The number that is returned is the one of the bit, where the first block of the group has its
number. -/
theorem blockNumber_dtog_iff (hsize : fs.bpg = fs.fpg) (hi : i < fs.fpg) :
    fs.dtog64 (blockNumber fs cg i) = cg ∧ fs.dtogd64 (blockNumber fs cg i) = i ↔
      cg * fs.fpg + fs.firstDblock < 2 ^ 32 := by
  have hnumber := Int.mul_tdiv_add_tmod (blockNumber fs cg i - fs.firstDblock) fs.bpg
  constructor
  · rintro ⟨hcg, hbit⟩
    rw [MExt2fs.dtog64] at hcg
    rw [MExt2fs.dtogd64] at hbit
    rw [hcg, hbit, blockNumber, hsize, Int.mul_comm] at hnumber
    have hlt := u32_lt ((cg * fs.fpg + fs.firstDblock : ℕ) : ℤ)
    omega
  · intro hlt
    have hdiff : blockNumber fs cg i - fs.firstDblock = ((cg * fs.fpg + i : ℕ) : ℤ) := by
      rw [blockNumber, u32_of_lt hlt]
      push_cast
      ring
    rw [MExt2fs.dtog64, MExt2fs.dtogd64, hdiff, hsize]
    rw [Int.natCast_tdiv_eq_ediv, Int.tmod_eq_emod_of_nonneg (by omega)]
    norm_cast
    exact ⟨by rw [Nat.mul_comm, Nat.mul_add_div (by omega), Nat.div_eq_of_lt hi, Nat.add_zero],
      by rw [Nat.mul_comm, Nat.mul_add_mod, Nat.mod_eq_of_lt hi]⟩

theorem alloccg_bit (h : BlocksAgree fs before gd) (c : ℕ) (sb : Totals)
    (hr : searchBlock fs gd.bbmap cg bpref = .bit i) :
    ext2Alloccg fs c cg bpref before true gd sb = .ret (blockNumber fs cg i)
      { gd with
        bbmap := gd.bbmap.setbit i
        nbfree := gd.nbfree - 1
        cs := ext2Clusteracct fs.fpg c (gd.bbmap.setbit i) i (-1) gd.cs }
      { sb with fbcount := u32 (sb.fbcount - 1) } := by
  rw [ext2Alloccg, if_neg h.entry, if_neg (by decide), if_neg h.pos.ne', hr]

theorem alloccg_outside (h : BlocksAgree fs before gd) (c : ℕ) (sb : Totals)
    (hr : searchBlock fs gd.bbmap cg bpref = .outside) :
    ext2Alloccg fs c cg bpref before true gd sb = .outside := by
  rw [ext2Alloccg, if_neg h.entry, if_neg (by decide), if_neg h.pos.ne', hr]

theorem alloccg_right_iff (h : BlocksAgree fs before gd) :
    TakesBlock fs c cg bpref before gd sb ↔
      cg * fs.fpg + fs.firstDblock < 2 ^ 32 ∧ InMap fs gd.bbmap cg bpref := by
  by_cases hin : InMap fs gd.bbmap cg bpref
  · obtain ⟨i, hi, hclear, hfound⟩ := searchBlock_spec h.size h.bytes hin (exists_free h)
    have hret := alloccg_bit h c sb hfound
    rw [and_iff_left hin, ← blockNumber_dtog_iff h.size hi]
    constructor
    · rintro ⟨j, hj, hjclear, number, gd', sb', heq, hmap, hnumber⟩
      rw [hret] at heq
      cases heq
      obtain rfl : j = i := by
        by_contra hne
        have := congrFun hmap j
        rw [Bitmap.isclr_setbit, Function.update_of_ne hne, Function.update_self, hjclear] at this
        cases this
      exact hnumber
    · exact fun hnumber => ⟨i, hi, hclear, _, _, _, hret, Bitmap.isclr_setbit _ _, hnumber⟩
  · have hret := alloccg_outside h c sb (searchBlock_outside hin)
    refine iff_of_false ?_ (fun hc => hin hc.2)
    rintro ⟨i, -, -, number, gd', sb', heq, -⟩
    rw [hret] at heq
    cases heq

end Block

/-! ### The inode that is taken -/

/-- The counter of the free inodes agrees with the bitmap and was not 0 on entry. -/
structure InodesAgree (fs : MExt2fs) (before : ℕ) (gd : Group) : Prop where
  bytes : NBBY ∣ fs.ipg
  entry : before ≠ 0
  pos : 0 < gd.nifree
  count : gd.nifree = ((Finset.range fs.ipg).filter fun i => gd.ibmap.isclr i = true).card

/-- A free inode of the group is taken: its bit alone is set, and the number that is returned is that of
the bit. -/
def TakesInode (fs : MExt2fs) (cg : ℕ) (ipref : ℤ) (isDir : Bool) (before : ℕ) (gd : Group)
    (sb : Totals) : Prop :=
  ∃ i < fs.ipg, gd.ibmap.isclr i = true ∧ ∃ number gd' sb',
    ext2Nodealloccg fs cg ipref isDir before true gd sb = .ret number gd' sb' ∧
      gd'.ibmap.isclr = Function.update gd.ibmap.isclr i false ∧
      fs.inoToCg64 number = cg ∧ fs.inoBit64 number = i

section Inode

variable {fs : MExt2fs} {map : Bitmap} {cg i n before : ℕ} {ipref : ℤ} {isDir : Bool} {gd : Group}
  {sb : Totals}

theorem tmod_neg_iff {x : ℤ} : x.tmod n < 0 ↔ x < 0 ∧ ¬(n : ℤ) ∣ x := by
  constructor
  · intro h
    refine ⟨?_, fun hdvd => ?_⟩
    · by_contra hx
      exact absurd (Int.tmod_nonneg (n : ℤ) (not_lt.1 hx)) (by omega)
    · rw [Int.tmod_eq_zero_of_dvd hdvd] at h
      omega
  · rintro ⟨hx, hdvd⟩
    have hne : x.tmod n ≠ 0 := fun h => hdvd (Int.dvd_of_tmod_eq_zero h)
    obtain ⟨k, rfl⟩ : ∃ k : ℕ, x = -k := ⟨x.natAbs, by omega⟩
    rw [Int.neg_tmod] at hne ⊢
    have := Int.tmod_nonneg (n : ℤ) (Int.natCast_nonneg k)
    omega

/-- The search by bytes from a byte of the map. -/
theorem searchBytes_inode (h8 : NBBY ∣ fs.ipg) (hfree : ∃ j < fs.ipg, map.isclr j = true) {r : ℕ}
    (hr : r < fs.ipg) :
    ∃ i < fs.ipg, map.isclr i = true ∧
      searchBytes map (r / NBBY) (howmanyBytes (fs.ipg - r)) = .bit i := by
  have hall : NBBY * (r / NBBY + howmanyBytes (fs.ipg - r)) = fs.ipg := by
    unfold howmanyBytes NBBY at *
    omega
  have hend : NBBY * (r / NBBY + 1) ≤ fs.ipg := by
    unfold NBBY at *
    omega
  rcases searchBytes_spec map (r / NBBY) (howmanyBytes (fs.ipg - r)) with
    ⟨bno, heq, hclear, hwhere⟩ | ⟨-, hnone⟩
  · exact ⟨bno, by omega, hclear, heq⟩
  · obtain ⟨j, hj, hclear⟩ := hfree
    rw [hnone j (by omega)] at hclear
    cases hclear

theorem searchInode_spec (h8 : NBBY ∣ fs.ipg) (hfree : ∃ j < fs.ipg, map.isclr j = true)
    (hpref : 0 ≤ ipref ∨ (fs.ipg : ℤ) ∣ ipref - 1) :
    ∃ i < fs.ipg, map.isclr i = true ∧ searchInode fs map ipref = .bit i := by
  have hpos : 0 < fs.ipg := by
    obtain ⟨j, hj, -⟩ := hfree
    omega
  unfold searchInode
  by_cases hzero : (if ipref - 1 = -1 then 0 else ipref - 1) = 0
  · simp only [hzero, ne_eq, not_true_eq_false, if_false]
    exact searchBytes_inode h8 hfree hpos
  · simp only [ne_eq, hzero, not_false_eq_true, if_true]
    have hp : (if ipref - 1 = -1 then 0 else ipref - 1) = ipref - 1 := by
      split at hzero
      · exact absurd rfl hzero
      · rw [if_neg (by assumption)]
    rw [hp]
    have hge : ¬(ipref - 1).tmod fs.ipg < 0 := by
      rw [tmod_neg_iff]
      rintro ⟨hneg, hdvd⟩
      split at hzero
      · exact hzero rfl
      · exact hpref.elim (by omega) hdvd
    have hlt : (ipref - 1).tmod fs.ipg < fs.ipg := Int.tmod_lt_of_pos _ (Int.natCast_pos.2 hpos)
    rw [if_neg hge]
    split
    next hclr => exact ⟨_, by omega, hclr, rfl⟩
    next hset => exact searchBytes_inode h8 hfree (by omega)

theorem searchInode_outside (hneg : ipref < 0) (hdvd : ¬(fs.ipg : ℤ) ∣ ipref - 1) :
    searchInode fs map ipref = .outside := by
  have hout : (ipref - 1).tmod fs.ipg < 0 := tmod_neg_iff.2 ⟨by omega, hdvd⟩
  simp only [searchInode, show ipref - 1 ≠ -1 by omega, if_false, show ipref - 1 ≠ 0 by omega, ne_eq,
    not_false_eq_true, if_true, hout]

theorem inodeNumber_iff (hi : i < fs.ipg) :
    fs.inoToCg64 (inodeNumber fs cg i) = cg ∧ fs.inoBit64 (inodeNumber fs cg i) = i ↔
      cg * fs.ipg < 2 ^ 32 := by
  have hnumber := Int.mul_tdiv_add_tmod (inodeNumber fs cg i - 1) fs.ipg
  constructor
  · rintro ⟨hcg, hbit⟩
    rw [MExt2fs.inoToCg64] at hcg
    rw [MExt2fs.inoBit64] at hbit
    rw [hcg, hbit, inodeNumber, Int.mul_comm] at hnumber
    have hlt := u32_lt ((cg * fs.ipg : ℕ) : ℤ)
    omega
  · intro hlt
    have hdiff : inodeNumber fs cg i - 1 = ((cg * fs.ipg + i : ℕ) : ℤ) := by
      rw [inodeNumber, u32_of_lt hlt]
      push_cast
      ring
    rw [MExt2fs.inoToCg64, MExt2fs.inoBit64, hdiff, Int.natCast_tdiv_eq_ediv,
      Int.tmod_eq_emod_of_nonneg (by omega)]
    norm_cast
    exact ⟨by rw [Nat.mul_comm, Nat.mul_add_div (by omega), Nat.div_eq_of_lt hi, Nat.add_zero],
      by rw [Nat.mul_comm, Nat.mul_add_mod, Nat.mod_eq_of_lt hi]⟩

theorem nodealloccg_right_iff (h : InodesAgree fs before gd) :
    TakesInode fs cg ipref isDir before gd sb ↔
      cg * fs.ipg < 2 ^ 32 ∧ (0 ≤ ipref ∨ (fs.ipg : ℤ) ∣ ipref - 1) := by
  have hfree : ∃ j < fs.ipg, gd.ibmap.isclr j = true := by
    have hpos := h.pos
    rw [h.count, Finset.card_pos] at hpos
    obtain ⟨j, hj⟩ := hpos
    rw [Finset.mem_filter, Finset.mem_range] at hj
    exact ⟨j, hj⟩
  by_cases hpref : 0 ≤ ipref ∨ (fs.ipg : ℤ) ∣ ipref - 1
  · obtain ⟨i, hi, hclear, hfound⟩ := searchInode_spec h.bytes hfree hpref
    have hret := nodealloccg_bit cg isDir sb h.entry h.pos.ne' hfound
    rw [and_iff_left hpref, ← inodeNumber_iff hi]
    constructor
    · rintro ⟨j, hj, hjclear, number, gd', sb', heq, hmap, hnumber⟩
      rw [hret] at heq
      cases heq
      obtain rfl : j = i := by
        by_contra hne
        have := congrFun hmap j
        rw [Bitmap.isclr_setbit, Function.update_of_ne hne, Function.update_self, hjclear] at this
        cases this
      exact hnumber
    · exact fun hnumber => ⟨i, hi, hclear, _, _, _, hret, Bitmap.isclr_setbit _ _, hnumber⟩
  · rw [not_or] at hpref
    refine iff_of_false ?_ (fun hc => hc.2.elim hpref.1 hpref.2)
    rintro ⟨i, -, -, number, gd', sb', heq, -⟩
    rw [nodealloccg_outside cg isDir sb h.entry h.pos.ne' (searchInode_outside (by omega) hpref.2)]
      at heq
    cases heq

end Inode

/-- **The block and the inode that are taken**, in a group whose counters agree with its bitmaps: they are
right if and only if the numbers of the group fit 32 bits and no place computed from the preference is in
front of the map. -/
theorem alloccg_nodealloccg_right_iff (fs : MExt2fs) (contigsumsize cg before : ℕ) (bpref ipref : ℤ)
    (isDir : Bool) (gd : Group) (sb : Totals) :
    (BlocksAgree fs before gd →
      (TakesBlock fs contigsumsize cg bpref before gd sb ↔
        cg * fs.fpg + fs.firstDblock < 2 ^ 32 ∧ InMap fs gd.bbmap cg bpref)) ∧
    (InodesAgree fs before gd →
      (TakesInode fs cg ipref isDir before gd sb ↔
        cg * fs.ipg < 2 ^ 32 ∧ (0 ≤ ipref ∨ (fs.ipg : ℤ) ∣ ipref - 1))) :=
  ⟨alloccg_right_iff, nodealloccg_right_iff⟩

/-- Where `e2fs_first_dblock` is 0 or 1 no place is in front of the map. -/
theorem inMap_of_first_le_one {fs : MExt2fs} (h : fs.firstDblock ≤ 1) (map : Bitmap) (cg : ℕ)
    {bpref : ℤ} (hpref : 0 ≤ bpref) : InMap fs map cg bpref := by
  intro _ hne
  have hge : 0 ≤ fs.dtogd64 bpref := Int.tmod_nonneg _ (by omega)
  refine ⟨hge, fun _ => ?_⟩
  unfold startByte
  split
  next hne => exact Int.tdiv_nonneg (Int.tmod_nonneg _ (by omega)) (Int.natCast_nonneg _)
  next => exact le_rfl

/-- A volume with the first block of group 0 at a given place. -/
def volumeFrom (first : ℕ) : MExt2fs where
  logBsize := 0
  bcount := 65536
  rbcount := 0
  firstDblock := first
  bpg := 32
  fpg := 32
  ipg := 16
  ronly := false
  largefile := true
  hugeFile := false
  logBsize_le := MExt2fs.logBsize_1k
  bcount_lt := by decide
  bpg_pos := by decide

/-- A group with the first twelve blocks and the first four inodes in use. -/
def sampleGroup : Group where
  bbmap := fun loc => if loc = 0 then 0xff else if loc = 1 then 0x0f else 0
  ibmap := fun loc => if loc = 0 then 0x0f else 0
  nbfree := 20
  nifree := 12
  ndirs := 1
  cs := { init := false, sum := 0, maxcluster := 4 }

theorem alloccg_nodealloccg_right_sample :
    TakesBlock (volumeFrom 1) 4 3 106 20 sampleGroup ⟨20, 12, 1⟩ ∧
      TakesInode (volumeFrom 1) 3 49 false 20 sampleGroup ⟨20, 12, 1⟩ := by
  obtain ⟨hblock, hinode⟩ :=
    alloccg_nodealloccg_right_iff (volumeFrom 1) 4 3 20 106 49 false sampleGroup ⟨20, 12, 1⟩
  exact ⟨(hblock ⟨rfl, by decide, by decide, by decide, by decide⟩).2
      ⟨by decide, inMap_of_first_le_one le_rfl _ _ (by decide)⟩,
    (hinode ⟨by decide, by decide, by decide, by decide⟩).2 ⟨by decide, by decide⟩⟩

/-- The preferred block 17 is the second one of its group and taken: the scan starts in front of the
map. -/
theorem late_first_block_outside : BlocksAgree (volumeFrom 16) 20 sampleGroup ∧
    ¬TakesBlock (volumeFrom 16) 4 0 17 20 sampleGroup ⟨20, 12, 1⟩ := by
  have hagree : BlocksAgree (volumeFrom 16) 20 sampleGroup :=
    ⟨rfl, by decide, by decide, by decide, by decide⟩
  refine ⟨hagree, fun h => ?_⟩
  have hin := ((alloccg_right_iff hagree).1 h).2 (by decide) (by decide)
  exact absurd (hin.2 (by decide)) (by decide)

/-! ### Eight free blocks -/

/-- The block that is returned is the first of eight free blocks of the group. -/
def TakesEight (fs : MExt2fs) (contigsumsize cg : ℕ) (bpref : ℤ) (before : ℕ) (gd : Group)
    (sb : Totals) : Prop :=
  ∃ i gd' sb', ext2Alloccg fs contigsumsize cg bpref before true gd sb = .ret (blockNumber fs cg i) gd' sb' ∧
    i + 8 ≤ fs.fpg ∧ Eight gd.bbmap.isclr i

/-- Eight free blocks are where the scan looks: from the byte `start` to `start` bytes before the end of
the map, or before `start`; or they are the first free blocks from that byte on. -/
def EightInReach (fs : MExt2fs) (map : Bitmap) (start : ℕ) : Prop :=
  HasEight map (NBBY * start) (NBBY * (howmanyBytes fs.fpg - start)) ∨ HasEight map 0 (NBBY * start) ∨
    ∃ i, NBBY * start ≤ i ∧ i + 8 ≤ fs.fpg ∧ Eight map.isclr i ∧
      ∀ j, NBBY * start ≤ j → j < i → map.isset j = true

section EightBlocks

variable {fs : MExt2fs} {map : Bitmap} {c cg s i before : ℕ} {bpref : ℤ} {gd : Group} {sb : Totals}

/-- A taken preferred block of the group leaves the search to the bytes. -/
theorem searchBlock_taken (hcg : fs.dtog64 bpref = cg) (hpref : fs.firstDblock ≤ bpref)
    (htaken : map.isset (fs.dtogd64 bpref).toNat = true) :
    searchBlock fs map cg bpref = searchFrom fs map (fs.dtogd64 bpref) := by
  have hge : ¬fs.dtogd64 bpref < 0 := not_lt.2 (Int.tmod_nonneg _ (by omega))
  rw [Bitmap.isset_eq_not, Bool.not_eq_true'] at htaken
  simp only [searchBlock, hcg, ne_eq, not_true_eq_false, if_false, hge, htaken]
  split
  next hne => simp
  next hzero =>
    rw [not_not.1 hzero]
    congr 1
    rw [MExt2fs.dtogd64, show (0 : ℤ) - fs.firstDblock = 0 by omega, Int.zero_tmod]

/-- What the search from a byte comes to is the first of eight free blocks if and only if there are eight
in its reach. -/
theorem searchFrom_eight_iff (hsize : fs.bpg = fs.fpg) (hs : startByte fs bpref = s)
    (hfree : ∃ loc, NBBY * (loc + 1) ≤ fs.fpg ∧ map loc = 0) :
    (∃ i, searchFrom fs map bpref = .bit i ∧ i + 8 ≤ fs.fpg ∧ Eight map.isclr i) ↔
      EightInReach fs map s := by
  have hlt : s < howmanyBytes fs.fpg := by
    have := startByte_lt hsize bpref
    omega
  have hends : NBBY * (howmanyBytes fs.fpg - 1) < fs.fpg ∧ fs.fpg ≤ NBBY * howmanyBytes fs.fpg := by
    have hpos : 0 < fs.fpg := hsize ▸ fs.bpg_pos
    unfold howmanyBytes NBBY
    omega
  obtain ⟨loc, hloc, hbyte⟩ := hfree
  have hfree : Eight map.isclr (NBBY * loc) := fun k hk => by
    rw [isclr_byte map loc hk, hbyte]
    simp
  rw [searchFrom_eq hs hlt]
  obtain ⟨hsome, hnone⟩ := @eightPasses_spec map _ s hlt.le
  cases hpass : eightPasses map (howmanyBytes fs.fpg) s with
  | some bno =>
    obtain ⟨height, hwhere, hleast⟩ := hsome bno hpass
    have hle : bno + 8 ≤ fs.fpg := by
      rcases Nat.eq_zero_or_pos s with rfl | hpos
      · -- the scan of the whole map comes to the free byte at the latest
        have : ¬NBBY * loc < bno := fun h => hleast rfl _ h hfree
        unfold NBBY at *
        omega
      · unfold NBBY at *
        omega
    refine iff_of_true ⟨bno, rfl, hle, height⟩ ?_
    rcases hwhere with ⟨hge, hend⟩ | hend
    · exact .inl ⟨bno, hge, hend, height⟩
    · exact .inr (.inl ⟨bno, Nat.zero_le _, hend, height⟩)
  | none =>
    obtain ⟨hno, hno'⟩ := hnone hpass
    have hadd : s + (howmanyBytes fs.fpg - s) = howmanyBytes fs.fpg := by omega
    rw [EightInReach, or_iff_right hno, or_iff_right hno']
    rcases searchBytes_spec map s (howmanyBytes fs.fpg - s) with
      ⟨bno, heq, hclear, ⟨hge, -, hall⟩ | ⟨-, hfull⟩⟩ | ⟨-, hfull⟩
    · -- the first free block from the byte on
      constructor
      · rintro ⟨i, hi, hle, height⟩
        cases heq.symm.trans hi
        exact ⟨bno, hge, hle, height, fun j hj hj' => by rw [Bitmap.isset_eq_not, hall j hj hj']; rfl⟩
      · rintro ⟨i, hi, hle, height, hset⟩
        have hi₀ := height 0 (by decide)
        rw [Nat.add_zero] at hi₀
        obtain rfl : i = bno := by
          rcases lt_trichotomy i bno with h | h | h
          · rw [hall i hi h] at hi₀
            cases hi₀
          · exact h
          · have := hset bno hge h
            rw [Bitmap.isset_eq_not, hclear] at this
            cases this
        exact ⟨i, heq, hle, height⟩
    · -- there is no free block from the byte on
      rw [hadd] at hfull
      refine iff_of_false ?_ ?_
      · rintro ⟨i, -, hle, height⟩
        by_cases hend : i + 8 ≤ NBBY * s
        · exact hno' ⟨i, Nat.zero_le _, hend, height⟩
        · have hlast := height 7 (by decide)
          rw [hfull (i + 7) (by omega) (by omega)] at hlast
          cases hlast
      · rintro ⟨i, hi, hle, height, -⟩
        have hi₀ := height 0 (by decide)
        rw [hfull (i + 0) (by omega) (by omega)] at hi₀
        cases hi₀
    · have hbit := hfree 0 (by decide)
      rw [hfull (NBBY * loc + 0) (by rw [hadd]; unfold NBBY at *; omega)] at hbit
      cases hbit

/-- **Eight free blocks**: for a taken preferred block of the group, and a group with a free byte in its
bitmap, the block that is returned is the first of eight free ones if and only if the scan starts in the
map and has eight in its reach. -/
theorem eight_iff (hsize : fs.bpg = fs.fpg) (hentry : before ≠ 0) (hpos : gd.nbfree ≠ 0)
    (hcg : fs.dtog64 bpref = cg) (hpref : fs.firstDblock ≤ bpref)
    (htaken : gd.bbmap.isset (fs.dtogd64 bpref).toNat = true)
    (hfree : ∃ loc, NBBY * (loc + 1) ≤ fs.fpg ∧ gd.bbmap loc = 0) (contigsumsize : ℕ) (sb : Totals) :
    TakesEight fs contigsumsize cg bpref before gd sb ↔
      0 ≤ startByte fs (fs.dtogd64 bpref) ∧
        EightInReach fs gd.bbmap (startByte fs (fs.dtogd64 bpref)).toNat := by
  have htakes : TakesEight fs contigsumsize cg bpref before gd sb ↔
      ∃ i, searchFrom fs gd.bbmap (fs.dtogd64 bpref) = .bit i ∧ i + 8 ≤ fs.fpg ∧
        Eight gd.bbmap.isclr i := by
    rw [← searchBlock_taken hcg hpref htaken]
    unfold TakesEight ext2Alloccg
    rw [if_neg hentry, if_neg (by decide), if_neg hpos]
    constructor
    · rintro ⟨i, gd', sb', heq, hle, height⟩
      cases hr : searchBlock fs gd.bbmap cg bpref with
      | bit bno =>
        rw [hr] at heq
        obtain rfl : bno = i := by
          simp only [Outcome.ret.injEq, blockNumber] at heq
          omega
        exact ⟨bno, rfl, hle, height⟩
      | corrupted =>
        rw [hr] at heq
        cases heq
      | outside =>
        rw [hr] at heq
        cases heq
    · rintro ⟨i, hr, hle, height⟩
      rw [hr]
      exact ⟨i, _, _, rfl, hle, height⟩
  rw [htakes]
  by_cases hs : 0 ≤ startByte fs (fs.dtogd64 bpref)
  · rw [and_iff_right hs]
    exact searchFrom_eight_iff hsize (Int.toNat_of_nonneg hs).symm hfree
  · rw [searchFrom_outside (not_le.1 hs)]
    refine iff_of_false ?_ (fun h => hs h.1)
    rintro ⟨i, h, -⟩
    cases h

/-- The last byte of the map is free, the preferred block is the tenth one of the group. -/
def lateGroup : Group where
  bbmap := fun loc => if loc = 1 then 0xfb else if loc = 3 then 0 else 0xff
  ibmap := fun _ => 0
  nbfree := 9
  nifree := 16
  ndirs := 0
  cs := { init := false, sum := 0, maxcluster := 4 }

/-- The scan from byte 1 on does not look at the last byte, and a single block is taken. -/
theorem last_byte_missed : (volumeFrom 1).dtog64 10 = 0 ∧
    lateGroup.bbmap.isset ((volumeFrom 1).dtogd64 10).toNat = true ∧
    NBBY * (3 + 1) ≤ (volumeFrom 1).fpg ∧ lateGroup.bbmap 3 = 0 ∧
    ¬TakesEight (volumeFrom 1) 4 0 10 9 lateGroup ⟨9, 16, 0⟩ := by
  refine ⟨by decide, by decide, by decide, rfl, ?_⟩
  rintro ⟨i, gd', sb', heq, -, height⟩
  have hfound : searchBlock (volumeFrom 1) lateGroup.bbmap 0 10 = .bit 10 := by decide
  rw [ext2Alloccg, if_neg (by decide), if_neg (by decide), if_neg (by decide), hfound] at heq
  obtain rfl : i = 10 := by
    simp only [Outcome.ret.injEq, blockNumber] at heq
    omega
  exact absurd (height 6 (by decide)) (by decide)

/-- From byte 0 on the whole map is looked at. -/
theorem eight_sample : TakesEight (volumeFrom 1) 4 0 2 20 sampleGroup ⟨20, 12, 1⟩ :=
  (eight_iff rfl (by decide) (by decide) (by decide) (by decide) (by decide)
    ⟨2, by decide, rfl⟩ 4 ⟨20, 12, 1⟩).2
    ⟨by decide, .inl ⟨12, by decide, by decide, fun j hj => by
      revert j
      decide⟩⟩

end EightBlocks

end GroupMap

end Ext2fs
