import Ext2fs.Newfs.Steps

/-!
# When the layout is right

The adjustments of `mke2fs` come one after the other, and none is checked again.

* `LayoutRight` — what the layout is to be: exact, with groups that hold their metadata;
* `newfs_yields` — when it is exact, and the layout then;
* `Fine` — the number of groups, the inodes of each and the size of the reserve are in range;
* **`layout_iff`** — the layout is right exactly then.
-/

namespace Ext2fs.Newfs

open Tracked Fsck

/-! ### What the layout is to be -/

/-- The first block behind a group. -/
def Sb.groupEnd (sb : Sb) (c : ℕ) : ℕ := min (sb.first_dblock + sb.bpg * (c + 1)) sb.bcount

/-- **A group holds its metadata**, and its counts fit into their fields. -/
structure GroupRight (p : Params) (sb : Sb) (c : ℕ) (gd : Gd) : Prop where
  b_bitmap : gd.b_bitmap = sb.base c +
    if p.hasSb c then 1 + sb.gdbcount + if sb.resize then sb.reserved_ngdb else 0 else 0
  i_bitmap : gd.i_bitmap = gd.b_bitmap + 1
  i_tables : gd.i_tables = gd.i_bitmap + 1
  inside : gd.i_tables + sb.itpg ≤ sb.groupEnd c
  nbfree : gd.nbfree = sb.groupEnd c - (gd.i_tables + sb.itpg) ∧ gd.nbfree < 2 ^ 16
  nifree : gd.nifree + (if c = 0 then FIRSTINO - 1 else 0) = sb.ipg ∧ gd.nifree < 2 ^ 16

/-- **The layout is right.** -/
structure LayoutRight (o : Options) : Prop where
  exact : (newfs o).exact = true
  gcount : 0 < (newfs o).value.1.gcount
  ipg : FIRSTINO ≤ (newfs o).value.1.ipg ∧ (newfs o).value.1.ipg ≤ 8 * o.sortedBsize
  group : ∀ c < (newfs o).value.1.gcount, ∃ gd, (newfs o).value.2.gd[c]? = some gd ∧
    GroupRight (main o).value (newfs o).value.1 c gd
  reserved_le : (newfs o).value.1.reserved_ngdb ≤
    o.sortedBsize / 4 - (newfs o).value.1.gdbcount
  reserved_space : (newfs o).value.1.reserved_ngdb ≤ (newfs o).value.1.blocks_lastcg -
    overhead (main o).value { (newfs o).value.1 with reserved_ngdb := 0 }
      ((newfs o).value.1.gcount - 1)
  rbcount : (newfs o).value.1.rbcount = (newfs o).value.1.bcount * o.minfree / 100

/-! ### When it is exact -/

/-- What `mke2fs` is called with, where `main` is exact. -/
def Options.params (o : Options) : Params where
  fssize := o.fssize
  sectorsize := o.sectorsize
  bsize := o.sortedBsize
  fsize := if o.fsize = 0 then o.sortedBsize else o.fsize
  inodesize := o.inodesize
  num_inodes :=
    if o.num_inodes ≠ 0 then o.num_inodes
    else if o.density ≠ 0 then o.fssize / o.density
    else o.defaultInodes (o.fssize * o.sectorsize / o.sortedBsize)
  minfree := o.minfree
  oflag := o.oflag

section

variable {o : Options}

theorem sortedInodes_yields (blocks : ℕ) :
    Yields (o.sortedInodes blocks)
      (o.num_inodes = 0 → o.density ≠ 0 → o.fssize / o.density < 2 ^ 32)
      (if o.num_inodes ≠ 0 then o.num_inodes
        else if o.density ≠ 0 then o.fssize / o.density else o.defaultInodes blocks) := by
  unfold Options.sortedInodes
  by_cases hn : o.num_inodes ≠ 0
  · rw [if_pos hn, if_pos hn]
    exact .done (fun h => absurd h hn) rfl
  · rw [if_neg hn, if_neg hn]
    by_cases hd : o.density ≠ 0
    · rw [if_pos hd, if_pos hd]
      exact Yields.conv.last ⟨fun h => h (not_not.1 hn) hd, fun h _ _ => h⟩ fun _ => rfl
    · rw [if_neg hd, if_neg hd]
      exact .done (fun _ h => absurd h hd) rfl

theorem main_yields :
    Yields (main o) (o.fssize * o.sectorsize / o.sortedBsize < 2 ^ 32 ∧
      (o.num_inodes = 0 → o.density ≠ 0 → o.fssize / o.density < 2 ^ 32)) o.params := by
  unfold main
  refine Yields.step Yields.conv (fun h => h.1) fun hblocks => ?_
  refine Yields.step (sortedInodes_yields _) (fun h => h.2) fun hinodes => ?_
  exact .done ⟨hblocks, hinodes⟩ rfl

/-- Only the number of inodes can come out otherwise. -/
theorem main_value : (main o).value = { o.params with num_inodes := (main o).value.num_inodes } :=
  rfl

/-- A block is a power of 2 of sectors. -/
theorem Accepts.sectors {p : Params} (ha : Accepts p) : p.bsize = 2 ^ p.fsbtodb * p.sectorsize := by
  have hle : p.sectorsize ≤ p.bsize := ha.fsize_eq ▸ ha.sectorsize_le
  have hge : 1024 ≤ p.bsize := ha.bsize_ge
  have hS : p.sectorsize = 2 ^ p.sectorsize.log2 :=
    powerof2_log2 ha.sectorsize_pow.1 ha.sectorsize_pow.2
  have hBs : p.bsize = 2 ^ p.bsize.log2 := powerof2_log2 (by omega) ha.bsize_pow
  have hlog : p.sectorsize.log2 ≤ p.bsize.log2 := by
    by_contra hc
    have hlt : 2 ^ p.bsize.log2 < 2 ^ p.sectorsize.log2 :=
      Nat.pow_lt_pow_right (by decide) (Nat.lt_of_not_le hc)
    omega
  calc p.bsize = 2 ^ p.bsize.log2 := hBs
    _ = 2 ^ (p.bsize.log2 - p.sectorsize.log2) * 2 ^ p.sectorsize.log2 := by
      rw [← pow_add, Nat.sub_add_cancel hlog]
    _ = 2 ^ p.fsbtodb * p.sectorsize := by
      rw [← hS]
      rfl

/-- `main` and `mke2fs` count the same blocks. -/
theorem blocks_eq (ha : Accepts o.params) :
    o.fssize * o.sectorsize / o.sortedBsize = o.params.blocks := by
  have hpos : 0 < o.sectorsize := Nat.pos_of_ne_zero ha.sectorsize_pow.1
  have hsplit : o.sortedBsize = 2 ^ o.params.fsbtodb * o.sectorsize := ha.sectors
  show o.fssize * o.sectorsize / o.sortedBsize = o.fssize / 2 ^ o.params.fsbtodb
  conv_lhs => rw [hsplit]
  exact Nat.mul_div_mul_right _ _ hpos

end

section

variable {p : Params}

/-- What makes the layout exact, once the number of inodes is known. -/
structure Exact (p : Params) : Prop where
  groups₀ : p.groups₀ ≤ 65537
  groups : 0 < p.groups
  icount : p.ipg * p.groups < 2 ^ 32
  percent : p.kept * p.minfree < 2 ^ 32
  reserved : p.oflag → p.sb.gdbcount ≤ p.nindir ∧ overhead p p.sb (p.groups - 1) ≤ p.lastcg
  descriptors : ∀ c < p.groups, DescriptorFits p p.finalSb c ∧
    (totalsOf p p.finalSb (c + 1)).fbcount < 2 ^ 32 ∧
    (totalsOf p p.finalSb (c + 1)).ficount < 2 ^ 32

theorem finalSb_fields : p.finalSb.gcount = p.groups ∧ p.finalSb.bpg = p.bsize * NBBY ∧
    p.finalSb.blocks_lastcg = p.lastcg ∧ p.finalSb.ipg = p.ipg ∧ p.finalSb.itpg = p.ipg / p.ipb ∧
    p.finalSb.gdbcount = p.sb.gdbcount ∧ p.finalSb.first_dblock = p.first_dblock ∧
    p.finalSb.bcount = p.kept ∧ p.finalSb.rbcount = p.kept * p.minfree / 100 := by
  unfold Params.finalSb
  split <;> exact ⟨rfl, rfl, rfl, rfl, rfl, rfl, rfl, rfl, rfl⟩

theorem mke2fs_yields (h : Sizes p) :
    Yields (mke2fs p) (Exact p) (p.finalSb, totalsOf p p.finalSb p.groups) := by
  unfold mke2fs
  refine Yields.step (firstGroups_yields h) (fun he => he.groups₀) fun hg => ?_
  refine Yields.step (dropLast_yields h hg) (fun he => he.groups) fun hpos => ?_
  refine Yields.step (wholeTables_yields h hg hpos) (fun he => ⟨he.icount, he.percent⟩)
    fun hwhole => ?_
  refine Yields.step (reserve_yields h hg hpos) (fun he => he.reserved) fun hres => ?_
  obtain ⟨hgc, hbpg, hlast, -⟩ := finalSb_fields (p := p)
  obtain ⟨-, -, hle⟩ := h.kept_spec hpos
  have hgle : p.groups ≤ p.groups₀ := by
    unfold Params.groups
    split <;> omega
  have hB := h.bpg_le
  have hsize : ∀ c, p.finalSb.size c < 2 ^ 32 := fun c => by
    unfold Sb.size
    rw [hbpg, hlast]
    split <;> omega
  have hdesc : Yields (descriptors p p.finalSb) _ _ := descriptors_yields (by omega) hsize
  rw [hgc] at hdesc
  refine Yields.step hdesc (fun he => he.descriptors) fun hd => ?_
  exact .done ⟨hg, hpos, hwhole.1, hwhole.2, hres, hd⟩ rfl

end

/-! ### The condition -/

/-- **The condition**: at most 65537 groups, of which one stays; inodes for each group that are enough
for the reserved ones of the first and not too many for a bitmap; descriptors that leave the resize
inode its room; and a product for the reserve that is a word. -/
structure Fine (p : Params) : Prop where
  blocks : p.blocks - p.first_dblock ≤ 65537 * (p.bsize * NBBY)
  groups : p.groups₀ = 1 → ¬p.drops
  inodes : (if FIRSTINO ≤ p.ipb then 1 else 9) ≤ p.inodes / p.groups ∧
    p.inodes / p.groups ≤ 8 * p.bsize
  descriptors : p.oflag → EXT2_MIN_GD_SIZE * p.groups ≤ p.nindir * p.bsize
  reserve : p.kept * p.minfree < 2 ^ 32

section

variable {p : Params} (h : Sizes p)

include h

theorem groups₀_le_iff :
    p.groups₀ ≤ 65537 ↔ p.blocks - p.first_dblock ≤ 65537 * (p.bsize * NBBY) :=
  howmany_le_iff h.bpg_pos

theorem groups_pos_iff : 0 < p.groups ↔ (p.groups₀ = 1 → ¬p.drops) := by
  have hpos := h.groups₀_pos
  unfold Params.groups
  by_cases hd : p.drops
  · rw [if_pos hd]
    constructor
    · intro hg h1
      omega
    · intro hc
      have hne : p.groups₀ ≠ 1 := fun h1 => hc h1 hd
      omega
  · rw [if_neg hd]
    exact iff_of_true hpos fun _ => hd

theorem ipg_iff : (FIRSTINO ≤ p.ipg ∧ p.ipg ≤ 8 * p.bsize) ↔
    ((if FIRSTINO ≤ p.ipb then 1 else 9) ≤ p.inodes / p.groups ∧
      p.inodes / p.groups ≤ 8 * p.bsize) := by
  unfold Params.ipg roundUp FIRSTINO
  generalize p.inodes / p.groups = q
  have hB := h.bsize
  rcases h.ipb with hi | hi | hi | hi <;> rw [hi]
  all_goals
    split <;> split <;> omega

/-- The blocks of the table are those that were counted before it was made whole. -/
theorem itpg_eq : p.ipg / p.ipb = howmany (p.inodesize * (p.inodes / p.groups)) p.bsize := by
  unfold Params.ipg roundUp howmany Params.ipb
  generalize p.inodes / p.groups = q
  rcases h.bsize with hb | hb | hb <;> rcases h.inodesize with hi | hi <;> rw [hb, hi]
  all_goals
    split <;> split <;> omega

theorem gdbcount_iff : p.sb.gdbcount ≤ p.nindir ↔ EXT2_MIN_GD_SIZE * p.groups ≤ p.nindir * p.bsize :=
  howmany_le_iff h.bsize_pos

end

/-- The overhead with the reserved descriptors. -/
theorem overhead_finalSb {p : Params} (c : ℕ) : overhead p p.finalSb c =
    overhead p p.sb c + if p.hasSb c ∧ p.oflag then p.reserved else 0 := by
  by_cases hO : p.oflag = true
  · have hfin : p.finalSb =
      { p.sb with resize := decide (p.reserved ≠ 0), reserved_ngdb := p.reserved } := if_pos hO
    have hres : (if decide (p.reserved ≠ 0) = true then p.reserved else 0) = p.reserved := by
      by_cases h0 : p.reserved = 0
      · rw [h0]
        rfl
      · exact if_pos (decide_eq_true h0)
    unfold overhead
    rw [hfin]
    by_cases hsb : p.hasSb c
    · have hif : (if p.hasSb c ∧ p.oflag then p.reserved else 0) = p.reserved := if_pos ⟨hsb, hO⟩
      rw [if_pos hsb, if_pos hsb, hif]
      show 1 + 1 + p.sb.itpg + (1 + p.sb.gdbcount + if decide (p.reserved ≠ 0) = true then
        p.reserved else 0) =
          1 + 1 + p.sb.itpg + (1 + p.sb.gdbcount + if p.oflag = true then 0 else 0) + p.reserved
      rw [hres, ite_self]
      omega
    · have hif : (if p.hasSb c ∧ p.oflag then p.reserved else 0) = 0 := if_neg fun hc => hsb hc.1
      rw [if_neg hsb, if_neg hsb, hif]
  · have hfin : p.finalSb = p.sb := if_neg hO
    have hif : (if p.hasSb c ∧ p.oflag then p.reserved else 0) = 0 := if_neg fun hc => hO hc.2
    rw [hfin, hif]
    rfl

theorem finalSb_reserved {p : Params} :
    p.finalSb.reserved_ngdb = if p.oflag then p.reserved else 0 := by
  unfold Params.finalSb
  split <;> rfl

/-- The overhead as `cgoverhead` counts it before the descriptors are reserved. -/
theorem overhead_unreserved {p : Params} (c : ℕ) :
    overhead p { p.finalSb with reserved_ngdb := 0 } c = overhead p p.sb c := by
  obtain ⟨-, -, -, -, hitpg, hgd, -⟩ := finalSb_fields (p := p)
  unfold overhead
  show 1 + 1 + p.finalSb.itpg + (if p.hasSb c then 1 + p.finalSb.gdbcount + if p.finalSb.resize then 0
    else 0 else 0) = 1 + 1 + p.ipg / p.ipb + if p.hasSb c then 1 + p.sb.gdbcount +
      if p.oflag then 0 else 0 else 0
  rw [hitpg, hgd, ite_self, ite_self]

section

variable {p : Params} (h : Sizes p) (hf : Fine p)

include h hf

/-- What the tables, the descriptors and the reserved descriptors take. -/
theorem Fine.bounds : p.sb.itpg ≤ 2048 ∧ p.sb.gdbcount ≤ 2049 ∧
    (p.oflag → p.sb.gdbcount + p.reserved ≤ p.nindir) := by
  have hg := (groups₀_le_iff h).2 hf.blocks
  have hgle : p.groups ≤ p.groups₀ := by
    unfold Params.groups
    split <;> omega
  refine ⟨?_, ?_, fun hO => ?_⟩
  · show p.ipg / p.ipb ≤ 2048
    rw [itpg_eq h]
    have hq := hf.inodes.2
    refine (howmany_le_iff h.bsize_pos).2 ?_
    calc p.inodesize * (p.inodes / p.groups) ≤ 256 * (8 * p.bsize) :=
          Nat.mul_le_mul (by rcases h.inodesize with hi | hi <;> omega) hq
      _ = 2048 * p.bsize := by ring
  · refine (howmany_le_iff h.bsize_pos).2 ?_
    unfold EXT2_MIN_GD_SIZE
    rcases h.bsize with hb | hb | hb <;> omega
  · have hgd := (gdbcount_iff h).2 (hf.descriptors hO)
    have hres : p.reserved ≤ min p.target p.nindir - p.sb.gdbcount := Nat.min_le_left ..
    omega

theorem Fine.overhead_le (c : ℕ) : overhead p p.finalSb c ≤ p.bsize * NBBY := by
  obtain ⟨hit, hgd, hres⟩ := hf.bounds h
  rw [overhead_finalSb]
  have hbase : overhead p p.sb c ≤ 1 + 1 + 2048 + (1 + p.sb.gdbcount) := by
    unfold overhead
    show 1 + 1 + p.sb.itpg + (if p.hasSb c then 1 + p.sb.gdbcount + if p.oflag then 0 else 0 else 0) ≤ _
    rw [ite_self]
    split <;> omega
  have hnin : p.nindir ≤ 1024 := by
    have hle := h.bsize_le
    unfold Params.nindir
    omega
  have hbpg : 8192 ≤ p.bsize * NBBY := by
    unfold NBBY
    rcases h.bsize with hb | hb | hb <;> omega
  by_cases hO : p.oflag = true
  · have hsum := hres hO
    split <;> omega
  · rw [if_neg fun hc => hO hc.2]
    omega

/-- The last group had room for its share, or it was dropped. -/
theorem Fine.last_le : overhead p p.sb (p.groups - 1) ≤ p.lastcg := by
  by_cases hd : p.drops
  · have hle := hf.overhead_le h (p.groups - 1)
    rw [overhead_finalSb] at hle
    have hlast : p.lastcg = p.bsize * NBBY := if_pos hd
    omega
  · have hlast : p.lastcg = p.rest := if_neg hd
    have hgroups : p.groups = p.groups₀ := if_neg hd
    have hroom : p.least ≤ p.rest := Nat.le_of_not_lt hd
    refine le_trans ?_ (hroom.trans_eq hlast.symm)
    unfold overhead Params.least
    show 1 + 1 + p.ipg / p.ipb + (if p.hasSb (p.groups - 1) then
      1 + howmany (EXT2_MIN_GD_SIZE * p.groups) p.bsize + if p.oflag then 0 else 0 else 0) ≤ _
    rw [itpg_eq h, hgroups, ite_self]
    split <;> omega

/-- Every group has room for its metadata. -/
theorem Fine.overhead_size (c : ℕ) :
    overhead p p.finalSb c ≤ p.finalSb.size c := by
  obtain ⟨hgc, hbpg, hlast, -⟩ := finalSb_fields (p := p)
  unfold Sb.size
  rw [hgc, hbpg, hlast]
  split
  · next hlastc =>
    have hle := hf.last_le h
    have hres : p.reserved ≤ p.lastcg - overhead p p.sb (p.groups - 1) := Nat.min_le_right ..
    rw [overhead_finalSb, hlastc]
    split <;> omega
  · exact hf.overhead_le h c

theorem Fine.groups_le : p.groups ≤ 65537 := by
  have hg := (groups₀_le_iff h).2 hf.blocks
  unfold Params.groups
  split <;> omega

omit hf in
/-- The groups cover the blocks. -/
theorem Sizes.groupEnd_eq {c : ℕ} (hc : c < p.groups) :
    p.finalSb.groupEnd c = p.finalSb.base c + p.finalSb.size c := by
  obtain ⟨hgc, hbpg, hlast, -, -, -, hfirst, hbc, -⟩ := finalSb_fields (p := p)
  obtain ⟨hkept, -, hle⟩ := h.kept_spec (by omega)
  unfold Sb.groupEnd Sb.base Sb.size
  rw [hgc, hbpg, hlast, hfirst, hbc, hkept, Nat.mul_succ]
  split
  · next hlastc =>
    rw [hlastc]
    omega
  · next hlastc =>
    have hmul : p.bsize * NBBY * (c + 1) ≤ p.bsize * NBBY * (p.groups - 1) :=
      Nat.mul_le_mul_left _ (by omega)
    rw [Nat.mul_succ] at hmul
    omega

/-- The descriptors are exact. -/
theorem Fine.descriptorFits {c : ℕ} (hc : c < p.groups) : DescriptorFits p p.finalSb c := by
  obtain ⟨hgc, hbpg, hlast, hipg, hitpg, hgd, hfirst, hbc, -⟩ := finalSb_fields (p := p)
  obtain ⟨-, -, hle⟩ := h.kept_spec (by omega)
  have hB := h.bpg_le
  have hover := hf.overhead_size h c
  have hrange := (ipg_iff h).2 hf.inodes
  have hsize : p.finalSb.size c ≤ p.bsize * NBBY := by
    unfold Sb.size
    rw [hbpg, hlast]
    split <;> omega
  refine ⟨?_, hover, by omega, ?_, fun _ => ?_⟩
  · have hbase : p.finalSb.base c ≤ 1 + 32768 * 65536 := by
      have hmul : p.bsize * NBBY * c ≤ 32768 * 65536 :=
        Nat.mul_le_mul hB (by have := hf.groups_le h; omega)
      have hone := first_le (p := p)
      unfold Sb.base
      rw [hbpg, hfirst]
      omega
    have hat : bitmapAt p p.finalSb c + 1 + 1 ≤ p.finalSb.base c + overhead p p.finalSb c := by
      unfold bitmapAt overhead
      omega
    omega
  · rw [hipg]
    have hbs := h.bsize_le
    omega
  · rw [hipg]
    exact Nat.le_of_lt hrange.1

theorem Fine.totals_lt {n : ℕ} (hn : n ≤ p.groups) :
    (totalsOf p p.finalSb n).fbcount < 2 ^ 32 ∧ (totalsOf p p.finalSb n).ficount < 2 ^ 32 := by
  have hB := h.bpg_le
  have hg := hf.groups_le h
  have hsum : ∀ f : ℕ → ℕ, (∀ c < n, f c ≤ 32768) → ((List.range n).map f).sum < 2 ^ 32 := by
    intro f hle
    have hcard := List.sum_le_card_nsmul ((List.range n).map f) 32768 fun x hx => by
      obtain ⟨c, hc, rfl⟩ := List.mem_map.1 hx
      exact hle c (List.mem_range.1 hc)
    rw [List.length_map, List.length_range, smul_eq_mul] at hcard
    omega
  obtain ⟨hgc, hbpg, hlast, hipg, -⟩ := finalSb_fields (p := p)
  have hrange := (ipg_iff h).2 hf.inodes
  refine ⟨hsum _ fun c hc => ?_, hsum _ fun c _ => ?_⟩
  · obtain ⟨-, -, hle⟩ := h.kept_spec (by omega)
    have hsize : p.finalSb.size c ≤ p.bsize * NBBY := by
      unfold Sb.size
      rw [hbpg, hlast]
      split <;> omega
    show p.finalSb.size c - overhead p p.finalSb c ≤ 32768
    omega
  · have hle : p.finalSb.ipg ≤ 32768 := by
      rw [hipg]
      have hbs := h.bsize_le
      omega
    show (if c = 0 then p.finalSb.ipg - (FIRSTINO - 1) else p.finalSb.ipg) ≤ 32768
    split <;> omega

/-- **Under the condition** the layout is exact. -/
theorem Fine.exact : Exact p where
  groups₀ := (groups₀_le_iff h).2 hf.blocks
  groups := (groups_pos_iff h).2 hf.groups
  icount := by
    have hrange := (ipg_iff h).2 hf.inodes
    have hbs := h.bsize_le
    have hmul : p.ipg * p.groups ≤ 32768 * 65537 := Nat.mul_le_mul (by omega) (hf.groups_le h)
    omega
  percent := hf.reserve
  reserved hO := ⟨(gdbcount_iff h).2 (hf.descriptors hO), hf.last_le h⟩
  descriptors c hc := ⟨hf.descriptorFits h hc, hf.totals_lt h hc⟩

end

/-! ### Every accepted call is laid out right, or not -/

section

variable {o : Options}

theorem Accepts.params (ha : Accepts (main o).value) : Accepts o.params where
  bsize_pow := ha.bsize_pow
  sectorsize_pow := ha.sectorsize_pow
  sectorsize_le := ha.sectorsize_le
  bsize_ge := ha.bsize_ge
  bsize_le := ha.bsize_le
  fsize_eq := ha.fsize_eq
  inodesize := ha.inodesize
  fssize := ha.fssize

/-- **When the layout is exact**, and what it is then. -/
theorem newfs_yields (hv : o.Valid) (ha : Accepts (main o).value) :
    Yields (newfs o) ((o.num_inodes = 0 → o.density ≠ 0 → o.fssize / o.density < 2 ^ 32) ∧
      Exact o.params) (o.params.finalSb, totalsOf o.params o.params.finalSb o.params.groups) := by
  have h : Sizes o.params := ha.params.sizes hv.inodesize hv.minfree
  unfold newfs
  refine Yields.step main_yields (fun hc => ⟨?_, hc.1⟩) fun hmain => ?_
  · rw [blocks_eq ha.params]
    have hle := (groups₀_le_iff h).1 hc.2.groups₀
    have hmul : 65537 * (o.params.bsize * NBBY) ≤ 65537 * 32768 := Nat.mul_le_mul_left _ h.bpg_le
    have hone := first_le (p := o.params)
    omega
  · exact (mke2fs_yields h).last ⟨fun hc => hc.2, fun he => ⟨hmain.2, he⟩⟩ fun _ => rfl

/-- The groups of an exact layout with these counts of inodes hold what they have to. -/
theorem groupRight (h : Sizes o.params) (he : Exact o.params) {c : ℕ} (hc : c < o.params.groups) :
    GroupRight (main o).value o.params.finalSb c (gdOf o.params o.params.finalSb c) := by
  obtain ⟨haddr, hover, hfree, hipg, hres⟩ := (he.descriptors c hc).1
  have hend := h.groupEnd_eq hc
  have hat : bitmapAt o.params o.params.finalSb c + 1 + 1 + o.params.finalSb.itpg =
      o.params.finalSb.base c + overhead o.params o.params.finalSb c := by
    unfold bitmapAt overhead
    omega
  refine ⟨rfl, rfl, rfl, ?_, ⟨?_, hfree⟩, ?_⟩
  · show bitmapAt o.params o.params.finalSb c + 1 + 1 + o.params.finalSb.itpg ≤ _
    omega
  · show o.params.finalSb.size c - overhead o.params o.params.finalSb c = o.params.finalSb.groupEnd c -
      (bitmapAt o.params o.params.finalSb c + 1 + 1 + o.params.finalSb.itpg)
    omega
  · show (if c = 0 then o.params.finalSb.ipg - (FIRSTINO - 1) else o.params.finalSb.ipg) +
      (if c = 0 then FIRSTINO - 1 else 0) = o.params.finalSb.ipg ∧
        (if c = 0 then o.params.finalSb.ipg - (FIRSTINO - 1) else o.params.finalSb.ipg) < 2 ^ 16
    by_cases h0 : c = 0
    · rw [if_pos h0, if_pos h0]
      have hle := hres h0
      omega
    · rw [if_neg h0, if_neg h0]
      exact ⟨Nat.add_zero _, hipg⟩

/-- **The layout is right exactly under the condition**, and when the number of inodes that comes from
the density is a word. -/
theorem layout_iff (o : Options) (hv : o.Valid) (ha : Accepts (main o).value) :
    LayoutRight o ↔ (o.num_inodes = 0 → o.density ≠ 0 → o.fssize / o.density < 2 ^ 32) ∧
      Fine o.params := by
  have h : Sizes o.params := ha.params.sizes hv.inodesize hv.minfree
  obtain ⟨hexact, hvalue⟩ := newfs_yields hv ha
  obtain ⟨hgc, hbpg, hlast, hipg, hitpg, hgd, hfirst, hbc, hrb⟩ := finalSb_fields (p := o.params)
  constructor
  · intro hr
    obtain ⟨hdensity, he⟩ := hexact.1 hr.exact
    have hv' := hvalue ⟨hdensity, he⟩
    refine ⟨hdensity, (groups₀_le_iff h).1 he.groups₀, (groups_pos_iff h).1 he.groups, ?_,
      fun hO => (gdbcount_iff h).1 (he.reserved hO).1, he.percent⟩
    have hrange := hr.ipg
    rw [hv'] at hrange
    exact (ipg_iff h).1 (hipg ▸ hrange)
  · rintro ⟨hdensity, hf⟩
    have he := hf.exact h
    have hv' := hvalue ⟨hdensity, he⟩
    refine ⟨hexact.2 ⟨hdensity, he⟩, ?_, ?_, fun c hc => ?_, ?_, ?_, ?_⟩ <;> rw [hv'] at *
    · show 0 < o.params.finalSb.gcount
      rw [hgc]
      exact he.groups
    · show FIRSTINO ≤ o.params.finalSb.ipg ∧ o.params.finalSb.ipg ≤ 8 * o.params.bsize
      rw [hipg]
      exact (ipg_iff h).2 hf.inodes
    · have hc' : c < o.params.groups := hgc ▸ hc
      refine ⟨gdOf o.params o.params.finalSb c, ?_, groupRight h he hc'⟩
      show ((List.range o.params.groups).map _)[c]? = _
      rw [List.getElem?_map, List.getElem?_range hc']
      rfl
    · show o.params.finalSb.reserved_ngdb ≤ o.params.nindir - o.params.finalSb.gdbcount
      have hle : o.params.reserved ≤ min o.params.target o.params.nindir - o.params.sb.gdbcount :=
        Nat.min_le_left ..
      rw [finalSb_reserved, hgd]
      split <;> omega
    · show o.params.finalSb.reserved_ngdb ≤ o.params.finalSb.blocks_lastcg -
        overhead o.params { o.params.finalSb with reserved_ngdb := 0 } (o.params.finalSb.gcount - 1)
      have hle : o.params.reserved ≤
          o.params.lastcg - overhead o.params o.params.sb (o.params.groups - 1) := Nat.min_le_right ..
      rw [finalSb_reserved, hlast, overhead_unreserved, hgc]
      split <;> omega
    · show o.params.finalSb.rbcount = o.params.finalSb.bcount * o.params.minfree / 100
      rw [hrb, hbc]

end

/-- An image of 64 MiB with blocks of 1 KiB, in format 1. -/
def smallImage : Options where
  fssize := 131072
  sectorsize := 512
  bsize := 1024
  fsize := 0
  inodesize := 128
  num_inodes := 0
  density := 0
  minfree := 5
  oflag := true

/-- What `main` lets pass of it. -/
theorem smallImage_valid : smallImage.Valid :=
  ⟨by decide, .inl rfl, by decide, by decide, by decide⟩

theorem smallImage_accepted : Accepts (main smallImage).value :=
  ⟨by decide, by decide, by decide, by decide, by decide, by decide, by decide +kernel,
    by decide +kernel⟩

theorem smallImage_right : LayoutRight smallImage := by
  refine (layout_iff smallImage smallImage_valid smallImage_accepted).2 ⟨fun _ h => absurd rfl h, ?_⟩
  exact ⟨by decide +kernel, by decide +kernel, by decide +kernel, by decide +kernel,
    by decide +kernel⟩

/-- The same image with 11 inodes on two groups. -/
def fewInodes : Options := { smallImage with fssize := 32768, num_inodes := 11 }

/-- A volume of 2 TiB with blocks of 4 KiB and a reserve of 10 percent. -/
def largeReserve : Options :=
  { smallImage with fssize := 2 ^ 32, bsize := 4096, minfree := 10 }

/-- One group that is too small for its inodes. -/
def manyInodes : Options := { smallImage with fssize := 2048, num_inodes := 60000 }

/-- `main` and `mke2fs` let the call pass, and the layout is wrong. -/
def AcceptedWrong (o : Options) : Prop := (o.Valid ∧ Accepts (main o).value) ∧ ¬LayoutRight o

/-- **Three accepted calls**: the first group has fewer inodes than are reserved, the reserve is taken
of a product that has wrapped, and the only group is dropped. -/
theorem layout_wrong :
    ((newfs fewInodes).value.1.ipg = 8 ∧ AcceptedWrong fewInodes) ∧
      ((newfs largeReserve).value.1.rbcount = 10737418 ∧ AcceptedWrong largeReserve) ∧
      ((newfs manyInodes).value.1.gcount = 0 ∧ AcceptedWrong manyInodes) := by
  refine ⟨⟨by decide +kernel, ⟨⟨by decide, .inl rfl, by decide, by decide, by decide⟩, ?_⟩, fun h => ?_⟩,
    ⟨by decide +kernel, ⟨⟨by decide, .inl rfl, by decide, by decide, by decide⟩, ?_⟩, fun h => ?_⟩,
    ⟨by decide +kernel, ⟨⟨by decide, .inl rfl, by decide, by decide, by decide⟩, ?_⟩, fun h => ?_⟩⟩
  · exact ⟨by decide, by decide, by decide, by decide, by decide, by decide, by decide +kernel,
      by decide +kernel⟩
  · exact absurd h.ipg.1 (by decide +kernel)
  · exact ⟨by decide, by decide, by decide, by decide, by decide, by decide, by decide +kernel,
      by decide +kernel⟩
  · exact absurd h.rbcount (by decide +kernel)
  · exact ⟨by decide, by decide, by decide, by decide, by decide, by decide, by decide +kernel,
      by decide +kernel⟩
  · exact absurd h.gcount (by decide +kernel)

end Ext2fs.Newfs
