import Ext2fs.Newfs.Image

/-!
# The bitmaps of a group

`initcg` marks the bits behind the group and those of its metadata in the block bitmap, and the bits
behind the inodes and those of the reserved inodes in the inode bitmap.

* `Fits`, `Apart` — the groups hold their metadata, and do not touch each other;
* `isclr_blockMap` — the clear bits of a block bitmap are the free blocks;
* `isclr_inodeMap` — the clear bits of an inode bitmap are the free inodes, as far as whole bytes go.
-/

namespace Ext2fs

namespace Bitmap

variable {map : Bitmap} {start n i : ℕ}

/-- The bits that `memset` writes. -/
theorem isclr_fill (v : BitVec 8) : (map.fill start n v).isclr i =
    if NBBY * start ≤ i ∧ i < NBBY * (start + n) then !v.getLsbD (i % NBBY) else map.isclr i := by
  have hin : (start ≤ i / NBBY ∧ i / NBBY < start + n) ↔
      NBBY * start ≤ i ∧ i < NBBY * (start + n) := by
    unfold NBBY
    omega
  rw [isclr_eq, isclr_eq, fill]
  by_cases h : NBBY * start ≤ i ∧ i < NBBY * (start + n)
  · rw [if_pos (hin.2 h), if_pos h]
  · rw [if_neg fun hc => h (hin.1 hc), if_neg h]

/-- Full bytes have no clear bits. -/
theorem isclr_fill_full : (map.fill start n 0xff).isclr i =
    (map.isclr i && !decide (NBBY * start ≤ i ∧ i < NBBY * (start + n))) := by
  have hbit := getLsbD_full (i % NBBY) (Nat.mod_lt _ (by decide))
  rw [isclr_fill, hbit]
  split
  · next h => rw [decide_eq_true h, Bool.not_true, Bool.and_false]
  · next h => rw [decide_eq_false h, Bool.not_false, Bool.and_true]

theorem isclr_setbits : (map.setbits start n).isclr i =
    (map.isclr i && !decide (start ≤ i ∧ i < start + n)) := by
  induction n with
  | zero =>
    rw [decide_eq_false (by omega), Bool.not_false, Bool.and_true]
    rfl
  | succ n ih =>
    rw [setbits, isclr_setbit]
    by_cases hi : i = start + n
    · rw [hi, Function.update_self, decide_eq_true (by omega), Bool.not_true, Bool.and_false]
    · rw [Function.update_of_ne hi, ih]
      congr 3
      exact propext ⟨fun h => by omega, fun h => by omega⟩

end Bitmap

namespace Newfs

open Tracked Fsck

/-! ### Groups that hold their metadata -/

/-- **Each group ends its metadata on the volume.** -/
structure Fits (p : Params) (sb : Sb) : Prop where
  sizes : Sizes p
  sectors : p.bsize = 2 ^ p.fsbtodb * p.sectorsize
  bpg : sb.bpg = p.bsize * NBBY
  first_dblock : sb.first_dblock = p.first_dblock
  bcount : sb.bcount < 2 ^ 32
  tables : ∀ c < sb.gcount, sb.base c + overhead p sb c ≤ sb.bcount

/-- **The groups fill the volume**, and each holds its metadata. -/
structure Apart (p : Params) (sb : Sb) : Prop extends Fits p sb where
  gcount : 0 < sb.gcount
  last : sb.bcount = sb.base (sb.gcount - 1) + sb.blocks_lastcg
  lastcg_le : sb.blocks_lastcg ≤ sb.bpg
  overhead_le : ∀ c < sb.gcount, overhead p sb c ≤ sb.size c

section

variable {p : Params} {sb : Sb} {c : ℕ}

theorem Fits.base_value (h : Fits p sb) (hc : c < sb.gcount) : (cgbase sb c).value = sb.base c :=
  cgbase_yields.value_eq (by have := h.tables c hc; have := h.bcount; omega)

theorem Fits.overhead_value (h : Fits p sb) (hc : c < sb.gcount) :
    (cgoverhead p sb c).value = overhead p sb c :=
  cgoverhead_yields.value_eq (by have := h.tables c hc; have := h.bcount; omega)

theorem Fits.bitmapAt_le (_ : Fits p sb) (c : ℕ) :
    bitmapAt p sb c + 1 + 1 + sb.itpg = sb.base c + overhead p sb c := by
  unfold bitmapAt overhead
  omega

theorem Fits.base_le (_ : Fits p sb) (c : ℕ) : sb.base c ≤ bitmapAt p sb c := Nat.le_add_right ..

theorem Sb.base_succ (sb : Sb) (c : ℕ) : sb.base (c + 1) = sb.base c + sb.bpg := by
  unfold Sb.base
  rw [Nat.mul_succ]
  omega

theorem Sb.base_mono (sb : Sb) {c d : ℕ} (h : c ≤ d) : sb.base c ≤ sb.base d := by
  have hmul : sb.bpg * c ≤ sb.bpg * d := Nat.mul_le_mul_left _ h
  unfold Sb.base
  omega

theorem Apart.size_le (h : Apart p sb) (c : ℕ) : sb.size c ≤ sb.bpg := by
  have hle := h.lastcg_le
  unfold Sb.size
  split <;> omega

/-- The metadata of a group ends before the next group. -/
theorem Apart.end_le (h : Apart p sb) (hc : c < sb.gcount) :
    sb.base c + overhead p sb c ≤ sb.base (c + 1) := by
  have hover := h.overhead_le c hc
  have hsize := h.size_le c
  rw [sb.base_succ]
  omega

/-- An exact layout fits. -/
theorem Exact.apart (h : Sizes p) (hs : p.bsize = 2 ^ p.fsbtodb * p.sectorsize) (he : Exact p) :
    Apart p p.finalSb := by
  obtain ⟨hgc, hbpg, hlast, -, -, -, hfirst, hbc, -⟩ := finalSb_fields (p := p)
  obtain ⟨hkept, hpos, hle⟩ := h.kept_spec he.groups
  have hgroups : p.groups ≤ p.groups₀ := by
    unfold Params.groups
    split <;> omega
  have hword : p.kept < 2 ^ 32 := by
    have hmul : p.bsize * NBBY * (p.groups - 1) ≤ 32768 * 65536 :=
      Nat.mul_le_mul h.bpg_le (by have := he.groups₀; omega)
    have hone := first_le (p := p)
    have hbpgle := h.bpg_le
    omega
  have hover : ∀ c < p.finalSb.gcount, overhead p p.finalSb c ≤ p.finalSb.size c := fun c hc =>
    (he.descriptors c (hgc ▸ hc)).1.overhead_le
  refine ⟨⟨h, hs, hbpg, hfirst, hbc ▸ hword, fun c hc => ?_⟩, hgc ▸ he.groups, ?_, ?_, hover⟩
  · have hend := h.groupEnd_eq (hgc ▸ hc)
    have hmin : p.finalSb.groupEnd c ≤ p.finalSb.bcount := Nat.min_le_right ..
    have := hover c hc
    omega
  · unfold Sb.base
    rw [hbc, hfirst, hbpg, hgc, hlast]
    exact hkept
  · rw [hlast, hbpg]
    exact hle

end

/-! ### The block bitmap -/

section

variable {p : Params} {sb : Sb} {c i : ℕ}

/-- The bits behind the last group, up to the end of the block. -/
theorem isclr_behind {n bpg : ℕ} (hn : n ≤ bpg) (hbpg : NBBY ∣ bpg) (hlt : bpg < 2 ^ 31) (hi : i < bpg) :
    (((Bitmap.setbits (fun _ => 0) n ((roundup n NBBY).value - n)).fill
      ((roundup n NBBY).value / NBBY) (u32 ((bpg : ℤ) - (roundup n NBBY).value)) 0xff).isclr i) =
        decide (i < n) := by
  -- `roundup` stays below the next multiple of 8
  obtain ⟨r, hr, hle, hdvd, hnear⟩ : ∃ r, (roundup n NBBY).value = r ∧ n ≤ r ∧ NBBY ∣ r ∧
      r < n + NBBY := by
    refine ⟨_, rfl, ?_⟩
    unfold roundup NBBY
    split
    · next h0 => exact ⟨le_rfl, Nat.dvd_of_mod_eq_zero h0, by show n < n + 8; omega⟩
    · next h0 =>
      have hval : (add 32 n (8 - n % 8)).value = n + (8 - n % 8) :=
        Yields.add.value_eq (by omega)
      rw [hval]
      omega
  have hrb : r ≤ bpg := by
    unfold NBBY at *
    omega
  rw [hr, Bitmap.isclr_fill_full, Bitmap.isclr_setbits]
  have hu : u32 ((bpg : ℤ) - r) = bpg - r := by
    unfold u32
    omega
  have hzero : Bitmap.isclr (fun _ => 0) i = true := by simp [Bitmap.isclr]
  rw [hu, hzero, Bool.true_and, ← Bool.not_or, ← Bool.decide_or, ← decide_not]
  refine decide_eq_decide.2 ?_
  unfold NBBY at *
  omega

/-- The clear bits of a block bitmap, where the last group has `n` blocks. -/
theorem isclr_blockMap_of {n : ℕ} (h : Sizes p) (hbpg : sb.bpg = p.bsize * NBBY)
    (hover : (cgoverhead p sb c).value = overhead p sb c)
    (hlast : u32 (sb.bcount - (cgbase sb (sb.gcount - 1)).value) = n) (hn : n ≤ sb.bpg)
    (hi : i < 8 * p.bsize) : (blockMap p sb c).isclr i =
      decide (overhead p sb c ≤ i ∧ i < if c = sb.gcount - 1 then n else sb.bpg) := by
  have hbytes : sb.bpg = 8 * p.bsize := hbpg.trans (Nat.mul_comm ..)
  have hbound := h.bpg_le
  have hzero : Bitmap.isclr (fun _ => 0) i = true := by simp [Bitmap.isclr]
  -- before the metadata is marked
  have hbuf : (if c = sb.gcount - 1 then
      (Bitmap.setbits (fun _ => 0) n ((roundup n NBBY).value - n)).fill
        ((roundup n NBBY).value / NBBY) (u32 ((sb.bpg : ℤ) - (roundup n NBBY).value)) 0xff
      else fun _ => 0).isclr i = decide (i < if c = sb.gcount - 1 then n else sb.bpg) := by
    by_cases hlastc : c = sb.gcount - 1
    · rw [if_pos hlastc, if_pos hlastc]
      refine isclr_behind hn ⟨p.bsize, hbytes⟩ ?_ (hbytes ▸ hi)
      rw [hbpg]
      omega
    · rw [if_neg hlastc, if_neg hlastc, hzero, decide_eq_true (hbytes ▸ hi)]
  unfold blockMap
  rw [hover, hlast]
  refine (Bitmap.isclr_setbits (n := overhead p sb c - overhead p sb c / NBBY * NBBY)).trans ?_
  rw [Bitmap.isclr_fill_full, hbuf, Nat.zero_add, ← decide_not, ← decide_not, ← Bool.decide_and,
    ← Bool.decide_and]
  refine decide_eq_decide.2 ?_
  unfold NBBY
  omega

/-- **The clear bits of a block bitmap** are those of the blocks behind the metadata. -/
theorem isclr_blockMap (h : Apart p sb) (hc : c < sb.gcount) (hi : i < 8 * p.bsize) :
    (blockMap p sb c).isclr i = decide (overhead p sb c ≤ i ∧ i < sb.size c) := by
  have hlast : u32 ((sb.bcount : ℤ) - (cgbase sb (sb.gcount - 1)).value) = sb.blocks_lastcg := by
    have hb := h.last
    have hw := h.bcount
    rw [h.base_value (by have := h.gcount; omega), hb]
    unfold u32
    omega
  exact isclr_blockMap_of h.sizes h.bpg (h.overhead_value hc) hlast h.lastcg_le hi

/-! ### The inode bitmap -/

/-- **The clear bits of an inode bitmap**, up to the last whole byte. -/
theorem isclr_inodeMap (hle : sb.ipg / NBBY ≤ p.bsize) (hi : i < 8 * p.bsize) :
    (inodeMap p sb c).isclr i =
      decide ((c = 0 → FIRSTINO - 1 ≤ i) ∧ i < NBBY * (sb.ipg / NBBY)) := by
  have hzero : (0 : BitVec 8).getLsbD (i % NBBY) = false := BitVec.getLsbD_zero
  have hbuf : ((Bitmap.fill (fun _ => 0) 0 (sb.ipg / NBBY) 0).fill (sb.ipg / NBBY)
      (p.bsize - sb.ipg / NBBY) 0xff).isclr i = decide (i < NBBY * (sb.ipg / NBBY)) := by
    have hclear : (Bitmap.fill (fun _ => 0) 0 (sb.ipg / NBBY) 0).isclr i = true := by
      rw [Bitmap.isclr_fill, hzero]
      simp [Bitmap.isclr]
    rw [Bitmap.isclr_fill_full, hclear, Bool.true_and, ← decide_not]
    refine decide_eq_decide.2 ?_
    unfold NBBY at *
    omega
  unfold inodeMap
  by_cases h0 : c = 0
  · rw [if_pos h0]
    refine Bitmap.isclr_setbits.trans ?_
    rw [hbuf, ← decide_not, ← Bool.decide_and]
    exact decide_eq_decide.2 ⟨fun h => by omega, fun h => by omega⟩
  · rw [if_neg h0]
    refine hbuf.trans (decide_eq_decide.2 ?_)
    exact ⟨fun h => ⟨fun hc => absurd hc h0, h⟩, fun h => h.2⟩

end

end Newfs

end Ext2fs
