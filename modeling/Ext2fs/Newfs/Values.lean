import Ext2fs.Newfs.LayoutRight

/-!
# What the layout has in any case

Where a step is not exact, `mke2fs` goes on with what it has.  Some of the layout is as it should be all
the same, whatever has wrapped around.

* `Laid` — what there is in any case;
* `firstGroups_count`, `dropLast_count` — the groups are as many as the blocks fill;
* `descriptors_value` — each descriptor is computed by itself;
* **`mke2fs_laid`** — every accepted call has it.
-/

namespace Ext2fs.Newfs

open Tracked Fsck

/-- **What the layout has in any case.** -/
structure Laid (p : Params) (sb : Sb) (t : Totals) : Prop where
  bpg : sb.bpg = p.bsize * NBBY
  first_dblock : sb.first_dblock = p.first_dblock
  bcount : sb.bcount < 2 ^ 32
  tables : sb.itpg = sb.ipg / p.ipb ∧ p.ipb ∣ sb.ipg
  gcount : sb.gcount = howmany (u32 (sb.bcount - sb.first_dblock)) sb.bpg
  gdbcount : sb.gdbcount = howmany (EXT2_MIN_GD_SIZE * sb.gcount) p.bsize
  gd : t.gd = (List.range sb.gcount).map fun c => (descriptor p sb c).value

section

variable {p : Params}

/-! ### The groups -/

/-- The groups are as many as the blocks fill. -/
structure GroupsCounted (p : Params) (g : Groups) : Prop where
  bcount : g.bcount < 2 ^ 32
  ncg : g.ncg = howmany (u32 (g.bcount - p.first_dblock)) (p.bsize * NBBY)
  blocks_gd : g.blocks_gd = howmany (EXT2_MIN_GD_SIZE * g.ncg) p.bsize

theorem u32_le (x : ℕ) : u32 x ≤ x := by
  unfold u32
  omega

/-- The difference of two words. -/
theorem sub_value {x y : ℕ} : (Tracked.sub 32 x y).value = u32 (x - y) := by
  show (x + (2 ^ 32 - y % 2 ^ 32)) % 2 ^ 32 = _
  unfold u32
  omega

theorem howmany_mul {B : ℕ} (hB : 0 < B) (n : ℕ) : howmany (B * n) B = n := by
  unfold howmany
  rw [if_pos (Nat.mul_mod_right ..), Nat.mul_div_cancel_left n hB]

theorem firstGroups_count (h : Sizes p) : GroupsCounted p (firstGroups p).value.1 ∧
    (firstGroups p).value.1.blocks_lastcg =
      (Tracked.sub 32 (u32 ((firstGroups p).value.1.bcount - p.first_dblock))
        (Tracked.mul 32 (p.bsize * NBBY)
          (Tracked.sub 32 (firstGroups p).value.1.ncg 1).value).value).value := by
  have hbpg := h.bpg_le
  have hword : (Tracked.mul 32 p.bsize NBBY).value = p.bsize * NBBY := Nat.mod_eq_of_lt (by omega)
  have hsub : (Tracked.sub 32 (conv 32 (p.fssize / 2 ^ p.fsbtodb)).value p.first_dblock).value =
      u32 ((firstGroups p).value.1.bcount - p.first_dblock) := sub_value
  refine ⟨⟨Nat.mod_lt _ (Nat.two_pow_pos _), ?_, rfl⟩, ?_⟩
  · rw [← hword, ← hsub]
    rfl
  · rw [← hsub, ← hword]
    rfl

/-- Without a group, next to no blocks are wanted in the last one. -/
theorem firstGroups_none (hzero : (firstGroups p).value.1.ncg = 0) : (firstGroups p).value.2 ≤ 4 := by
  have hleast : (firstGroups p).value.2 = (minblocks p (firstGroups p).value.1.ncg
      (howmany (EXT2_MIN_GD_SIZE * (firstGroups p).value.1.ncg) p.bsize)
        ((firstGroups p).value.1.num_inodes / (firstGroups p).value.1.ncg)).value := rfl
  have hnone : howmany 0 p.bsize = 0 := by
    unfold howmany
    rw [if_pos (Nat.zero_mod _), Nat.zero_div]
  have hbytes : (Tracked.mul 32 p.inodesize 0).value = 0 := by
    show p.inodesize * 0 % 2 ^ 32 = 0
    rw [Nat.mul_zero, Nat.zero_mod]
  have hiblocks : (Tracked.add 32 (1 + 1 + 1) (howmany (Tracked.mul 32 p.inodesize 0).value p.bsize)).value
      = 3 := by
    rw [hbytes, hnone]
    rfl
  rw [hleast, hzero, Nat.mul_zero, Nat.div_zero, hnone]
  show (if p.hasSb (Tracked.sub 32 0 1).value then Tracked.add 32
    (Tracked.add 32 (1 + 1 + 1) (howmany (Tracked.mul 32 p.inodesize 0).value p.bsize)).value (1 + 0)
      else pure _ : Tracked ℕ).value ≤ 4
  split
  · rw [hiblocks]
    exact le_rfl
  · exact hiblocks.trans_le (by decide)

/-- The groups that stay are as many as the blocks that stay fill. -/
theorem dropLast_count (h : Sizes p) :
    GroupsCounted p (dropLast p (firstGroups p).value.1 (firstGroups p).value.2).value := by
  obtain ⟨hcnt, hlast⟩ := firstGroups_count h
  have hnone := firstGroups_none (p := p)
  generalize (firstGroups p).value.2 = m at hnone
  generalize (firstGroups p).value.1 = g at hcnt hlast hnone
  unfold dropLast
  split
  swap
  · exact hcnt
  next hdrop =>
  have hB := h.bpg_pos
  have hone := first_le (p := p)
  have hncg := hcnt.ncg
  show GroupsCounted p { g with
    bcount := (Tracked.sub 32 g.bcount g.blocks_lastcg).value
    ncg := (Tracked.sub 32 g.ncg 1).value
    blocks_lastcg := p.bsize * NBBY
    blocks_gd := howmany (EXT2_MIN_GD_SIZE * (Tracked.sub 32 g.ncg 1).value) p.bsize
    inodes_per_cg := (Tracked.div g.num_inodes (Tracked.sub 32 g.ncg 1).value).value }
  refine ⟨Nat.mod_lt _ (Nat.two_pow_pos _), ?_, by dsimp only⟩
  show (Tracked.sub 32 g.ncg 1).value =
    howmany (u32 ((Tracked.sub 32 g.bcount g.blocks_lastcg).value - p.first_dblock)) (p.bsize * NBBY)
  rw [sub_value (x := g.bcount)]
  generalize hx' : u32 ((g.bcount : ℤ) - p.first_dblock) = x at *
  have hxeq : x = ((g.bcount : ℤ) - p.first_dblock) % 2 ^ 32 := by
    rw [← hx']
    unfold u32
    omega
  have h8 : 8192 ≤ p.bsize * NBBY := by
    unfold NBBY
    rcases h.bsize with hb | hb | hb <;> omega
  have hB' := h.bpg_le
  generalize p.bsize * NBBY = B at *
  obtain hzero | ⟨n, hn⟩ : g.ncg = 0 ∨ ∃ n, g.ncg = n + 1 := by
    cases g.ncg with
    | zero => exact .inl rfl
    | succ n => exact .inr ⟨n, rfl⟩
  · -- no group at all is not one that is dropped
    have hx0 : x = 0 := by
      by_contra hc
      have := howmany_pos hB (Nat.pos_of_ne_zero hc)
      omega
    have hfew : (Tracked.mul 32 B (Tracked.sub 32 0 1).value).value = 2 ^ 32 - B := by
      have hall : (Tracked.sub 32 0 1).value = 4294967295 := by
        rw [sub_value]
        unfold u32
        omega
      rw [hall]
      show B * 4294967295 % 2 ^ 32 = 2 ^ 32 - B
      omega
    rw [hx0, hzero, hfew, sub_value] at hlast
    have hm := hnone hzero
    unfold u32 at hlast
    omega
  · -- the blocks before the last group stay
    have hlow : n * B < x := by
      by_contra hc
      have hle := (howmany_le_iff hB).2 (Nat.le_of_not_lt hc)
      omega
    rw [Nat.mul_comm] at hlow
    have hnB : n ≤ B * n := Nat.le_mul_of_pos_left n hB
    have hless : (Tracked.sub 32 g.ncg 1).value = n := by
      rw [sub_value, hn]
      unfold u32
      omega
    rw [hless, show (Tracked.mul 32 B n).value = B * n from Nat.mod_eq_of_lt (by omega),
      sub_value] at hlast
    have hstay : u32 ((u32 ((g.bcount : ℤ) - g.blocks_lastcg) : ℤ) - p.first_dblock) = B * n := by
      generalize B * n = m at *
      unfold u32 at hlast ⊢
      omega
    rw [hless, hstay, howmany_mul hB]

/-! ### The superblock -/

/-- `reserve` changes the reserved descriptors only. -/
theorem reserve_value (p : Params) (sb : Sb) :
    (reserve p sb).value.bpg = sb.bpg ∧ (reserve p sb).value.first_dblock = sb.first_dblock ∧
    (reserve p sb).value.bcount = sb.bcount ∧ (reserve p sb).value.gcount = sb.gcount ∧
    (reserve p sb).value.gdbcount = sb.gdbcount ∧ (reserve p sb).value.ipg = sb.ipg ∧
    (reserve p sb).value.itpg = sb.itpg := by
  unfold reserve
  split <;> exact ⟨rfl, rfl, rfl, rfl, rfl, rfl, rfl⟩

theorem roundup_dvd {x y : ℕ} (hy : y ∣ 2 ^ 32) : y ∣ (roundup x y).value := by
  unfold roundup
  split
  · next h0 => exact Nat.dvd_of_mod_eq_zero h0
  · show y ∣ (x + (y - x % y)) % 2 ^ 32
    refine (Nat.dvd_mod_iff hy).2 ?_
    have hpos : 0 < y := Nat.pos_of_dvd_of_pos hy (Nat.two_pow_pos _)
    have hlt := Nat.mod_lt x hpos
    have hsplit := Nat.div_add_mod x y
    refine ⟨x / y + 1, ?_⟩
    rw [Nat.mul_succ]
    omega

/-! ### The descriptors -/

theorem bind_value {α β : Type} (t : Tracked α) (f : α → Tracked β) :
    (t >>= f).value = (f t.value).value := rfl

/-- The addresses in a descriptor. -/
theorem descriptor_value (p : Params) (sb : Sb) (c : ℕ) :
    (descriptor p sb c).value.b_bitmap = (bitmapBlock p sb c).value ∧
    (descriptor p sb c).value.i_bitmap = (Tracked.add 32 (bitmapBlock p sb c).value 1).value ∧
    (descriptor p sb c).value.i_tables =
      (Tracked.add 32 (Tracked.add 32 (bitmapBlock p sb c).value 1).value 1).value := by
  unfold descriptor
  by_cases h0 : c = 0
  · simp only [if_pos h0]
    exact ⟨rfl, rfl, rfl⟩
  · simp only [if_neg h0]
    exact ⟨rfl, rfl, rfl⟩

/-- **Each descriptor** is computed by itself. -/
theorem descriptors_value (p : Params) (sb : Sb) : (descriptors p sb).value.gd =
    (List.range sb.gcount).map fun c => (descriptor p sb c).value := by
  unfold descriptors
  induction sb.gcount with
  | zero => rfl
  | succ n ih =>
    rw [List.range_succ, (Yields.fold_append _ _ _).1, List.map_append, ← ih]
    rfl

/-- The superblock takes over the groups. -/
theorem wholeTables_value (g : Groups) :
    (wholeTables p g).value.bpg = p.bsize * NBBY ∧
    (wholeTables p g).value.first_dblock = p.first_dblock ∧
    (wholeTables p g).value.bcount = g.bcount ∧ (wholeTables p g).value.gcount = g.ncg ∧
    (wholeTables p g).value.gdbcount = g.blocks_gd ∧
    (wholeTables p g).value.ipg = (roundup g.inodes_per_cg p.ipb).value ∧
    (wholeTables p g).value.itpg = (roundup g.inodes_per_cg p.ipb).value / p.ipb :=
  ⟨rfl, rfl, rfl, rfl, rfl, rfl, rfl⟩

/-- **The layout of an accepted call.** -/
theorem mke2fs_laid (h : Sizes p) : Laid p (mke2fs p).value.1 (mke2fs p).value.2 := by
  have hcnt := dropLast_count h
  have hsb : (mke2fs p).value.1 = (reserve p
    (wholeTables p (dropLast p (firstGroups p).value.1 (firstGroups p).value.2).value).value).value :=
    rfl
  have htotals : (mke2fs p).value.2 = (descriptors p (mke2fs p).value.1).value := rfl
  generalize (dropLast p (firstGroups p).value.1 (firstGroups p).value.2).value = g at hcnt hsb
  obtain ⟨hbpg, hfirst, hbcount, hgcount, hgd, hipg, hitpg⟩ := wholeTables_value (p := p) g
  generalize (wholeTables p g).value = sb at *
  have hdvd : p.ipb ∣ 2 ^ 32 := by
    rcases h.ipb with hi | hi | hi | hi <;> rw [hi] <;> decide
  obtain ⟨ebpg, efirst, ebcount, egcount, egd, eipg, eitpg⟩ := reserve_value p sb
  rw [htotals]
  generalize (mke2fs p).value.1 = sb' at *
  rw [← hsb] at ebpg efirst ebcount egcount egd eipg eitpg
  refine ⟨ebpg.trans hbpg, efirst.trans hfirst, ?_, ⟨?_, ?_⟩, ?_, ?_, descriptors_value p sb'⟩
  · rw [ebcount, hbcount]
    exact hcnt.bcount
  · rw [eitpg, eipg, hitpg, hipg]
  · rw [eipg, hipg]
    exact roundup_dvd hdvd
  · rw [egcount, ebcount, efirst, ebpg, hgcount, hbcount, hfirst, hbpg]
    exact hcnt.ncg
  · rw [egd, egcount, hgd, hgcount]
    exact hcnt.blocks_gd

theorem newfs_value (o : Options) : (newfs o).value = (mke2fs (main o).value).value :=
  bind_value (main o) mke2fs

end

end Ext2fs.Newfs
