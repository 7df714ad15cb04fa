import Ext2fs.Newfs.Maps

/-!
# Writing the groups

A run that comes to its end has reached every block it wanted: a sector number that does not fit the
32 bits would first become negative, and `pwrite` would fail.

* `wtfsBlock_meets`, `rdfsBlock_meets` — one block;
* `GroupOn` — the metadata of a group is on the volume;
* `initcg_meets` — one group, whatever was written before it;
* `groups_meet` — all groups.
-/

namespace Ext2fs.Newfs

open Tracked Fsck Stopping

section

variable {p : Params} {sb : Sb} {P : Volume → Prop} {E : Volume → Prop}

/-! ### One write and one read -/

/-- The volume after a write of one block. -/
def Volume.put (vol : Volume) (p : Params) (b : ℕ) (data : Data) : Volume :=
  { vol with
    disk := Function.update vol.disk b data
    asked := ⟨.block b, p.todb b, p.bsize⟩ :: vol.asked }

theorem putBlocks_one (b : ℕ) (data : Data) (disk : ℕ → Data) :
    putBlocks b [data] disk = Function.update disk b data := by
  funext k
  unfold putBlocks
  rcases Nat.lt_trichotomy k b with hlt | rfl | hgt
  · rw [if_neg (by omega), Function.update_of_ne (by omega)]
  · rw [if_pos le_rfl, Nat.sub_self, Function.update_self]
    rfl
  · rw [if_pos (by omega), Function.update_of_ne (by omega), List.getElem?_eq_none]
    · rfl
    · show 1 ≤ k - b
      omega

/-- Blocks that are not written keep what they have. -/
theorem putBlocks_outside {b k : ℕ} {data : List Data} {disk : ℕ → Data}
    (h : k < b ∨ b + data.length ≤ k) : putBlocks b data disk k = disk k := by
  unfold putBlocks
  rcases h with hlt | hge
  · rw [if_neg (by omega)]
  · rw [if_pos (by omega), List.getElem?_eq_none (by omega)]
    rfl

theorem putBlocks_inside {b k : ℕ} {data : List Data} {disk : ℕ → Data} (h : k < data.length) :
    putBlocks b data disk (b + k) = data[k] := by
  unfold putBlocks
  rw [if_pos (Nat.le_add_right ..), Nat.add_sub_cancel_left, List.getElem?_eq_getElem h]
  rfl

/-- `wtfs`, by what it does with a sector. -/
theorem wtfs_meets {what : What} {bno : ℤ} {size : ℕ} {data : List Data} {Q : Volume → Prop}
    (hend : ∀ vol, P vol → i32 bno < 0 →
      E { vol with asked := ⟨what, i32 bno, size⟩ :: vol.asked })
    (hgo : ∀ vol, P vol → 0 ≤ i32 bno → Q { vol with
      asked := ⟨what, i32 bno, size⟩ :: vol.asked
      disk := putBlocks ((i32 bno).toNat / 2 ^ p.fsbtodb) data vol.disk }) :
    Meets P (wtfs p what bno size data) (fun _ => Q) E := by
  unfold wtfs
  refine Meets.bind (Q := fun _ vol => ∃ vol₀, P vol₀ ∧
    vol = { vol₀ with asked := ⟨what, i32 bno, size⟩ :: vol₀.asked })
      (Meets.modify fun vol hP => ⟨vol, hP, rfl⟩) fun _ => ?_
  refine Meets.bind (Q := fun _ vol => 0 ≤ i32 bno ∧ ∃ vol₀, P vol₀ ∧
    vol = { vol₀ with asked := ⟨what, i32 bno, size⟩ :: vol₀.asked })
      (Meets.assert (fun hpos vol hvol => ⟨hpos, hvol⟩) fun hneg vol hvol => ?_) fun _ => ?_
  · obtain ⟨vol₀, hP, rfl⟩ := hvol
    exact hend vol₀ hP (not_le.1 hneg)
  · refine Meets.modify fun vol hvol => ?_
    obtain ⟨hpos, vol₀, hP, rfl⟩ := hvol
    exact hgo vol₀ hP hpos

/-- The sector of a block that is not too far off. -/
theorem i32_todb {b : ℕ} (hb : b * 2 ^ p.fsbtodb < 2 ^ 32) (h : 0 ≤ i32 (p.todb b)) :
    b * 2 ^ p.fsbtodb < 2 ^ 31 ∧ i32 (p.todb b) = p.todb b ∧
      (i32 (p.todb b)).toNat / 2 ^ p.fsbtodb = b := by
  have hcast : p.todb b = ((b * 2 ^ p.fsbtodb : ℕ) : ℤ) := by
    unfold Params.todb
    push_cast
    rfl
  rw [hcast] at h ⊢
  have hlt : b * 2 ^ p.fsbtodb < 2 ^ 31 := by
    by_contra hc
    rw [i32_neg (by omega) hb] at h
    omega
  have hval : i32 ((b * 2 ^ p.fsbtodb : ℕ) : ℤ) = ((b * 2 ^ p.fsbtodb : ℕ) : ℤ) :=
    i32_of_lt (by omega) (by omega)
  refine ⟨hlt, hval, ?_⟩
  rw [hval, Int.toNat_natCast]
  exact Nat.mul_div_cancel b (Nat.two_pow_pos _)

/-- **A write of one block** reaches it, or the program ends. -/
theorem wtfsBlock_meets {b : ℕ} {data : Data} {Q : Volume → Prop} (hb : b * 2 ^ p.fsbtodb < 2 ^ 32)
    (h : ∀ vol, P vol → b * 2 ^ p.fsbtodb < 2 ^ 31 → Q (vol.put p b data)) :
    Meets P (wtfsBlock p b data) (fun _ => Q) fun _ => True := by
  unfold wtfsBlock
  refine wtfs_meets (fun _ _ _ => trivial) fun vol hP hpos => ?_
  obtain ⟨hlt, hval, hdiv⟩ := i32_todb hb hpos
  rw [hdiv, hval, putBlocks_one]
  exact h vol hP hlt

theorem rdfsBlock_meets {b : ℕ} {Q : Data → Volume → Prop} (hb : b * 2 ^ p.fsbtodb < 2 ^ 32)
    (h : ∀ vol, P vol → Q (vol.disk b) vol) :
    Meets P (rdfsBlock p b) Q fun _ => True := by
  unfold rdfsBlock
  refine Meets.bind (Q := fun _ vol => 0 ≤ i32 (p.todb b) ∧ P vol)
    (Meets.assert (fun hpos vol hP => ⟨hpos, hP⟩) fun _ _ _ => trivial) fun _ => ?_
  refine Meets.bind (Q := fun v vol => v = vol ∧ 0 ≤ i32 (p.todb b) ∧ P vol)
    (Meets.get fun vol hP => ⟨rfl, hP⟩) fun v => ?_
  refine Meets.pure fun vol hvol => ?_
  obtain ⟨rfl, hpos, hP⟩ := hvol
  rw [(i32_todb hb hpos).2.2]
  exact h v hP

/-! ### What is on the volume -/

/-- **The metadata of a group is on the volume.** -/
structure GroupOn (p : Params) (sb : Sb) (disk : ℕ → Data) (c : ℕ) : Prop where
  b_bitmap : disk (bitmapAt p sb c) = .bitmap (blockMap p sb c)
  i_bitmap : disk (bitmapAt p sb c + 1) = .bitmap (inodeMap p sb c)
  tables : ∀ j < sb.itpg, disk (bitmapAt p sb c + 1 + 1 + j) = .inodes fun _ => none

theorem GroupOn.congr {disk disk' : ℕ → Data} {c : ℕ} (h : GroupOn p sb disk c)
    (hsame : ∀ b, sb.base c ≤ b → b < sb.base c + overhead p sb c → disk' b = disk b) :
    GroupOn p sb disk' c := by
  have hat : bitmapAt p sb c + 1 + 1 + sb.itpg = sb.base c + overhead p sb c := by
    unfold bitmapAt overhead
    omega
  have hle : sb.base c ≤ bitmapAt p sb c := Nat.le_add_right ..
  refine ⟨?_, ?_, fun j hj => ?_⟩
  · rw [hsame _ hle (by omega)]
    exact h.b_bitmap
  · rw [hsame _ (by omega) (by omega)]
    exact h.i_bitmap
  · rw [hsame _ (by omega) (by omega)]
    exact h.tables j hj

/-- A descriptor as it is at first. -/
def descOf (p : Params) (sb : Sb) (c : ℕ) : Desc := { gdOf p sb c with ndirs := 0 }

/-- The first `c` groups are written, and nothing in memory has changed. -/
structure Upto (p : Params) (sb : Sb) (c : ℕ) (vol : Volume) : Prop where
  gd : vol.gd = (List.range sb.gcount).map (descOf p sb)
  fbcount : vol.fbcount = ((List.range sb.gcount).map fun c => (gdOf p sb c).nbfree).sum
  ficount : vol.ficount = ((List.range sb.gcount).map fun c => (gdOf p sb c).nifree).sum
  groups : ∀ d < c, GroupOn p sb vol.disk d
  near : ∀ d < c, bitmapAt p sb d * 2 ^ p.fsbtodb < 2 ^ 31
  inodes : 0 < c → sb.ipg / NBBY ≤ p.bsize

theorem Fits.shift_le (h : Fits p sb) : 2 ^ p.fsbtodb ≤ 4096 := by
  have hs := h.sectors
  have hle := h.sizes.bsize_le
  have hpos : 0 < p.sectorsize := by
    refine Nat.pos_of_ne_zero fun h0 => ?_
    have := h.sizes.bsize_pos
    rw [h0, Nat.mul_zero] at hs
    omega
  exact (Nat.le_mul_of_pos_right _ hpos).trans (hs ▸ hle)

/-- A group that is reached is not far behind the one before it. -/
theorem Fits.near (h : Fits p sb) {c b : ℕ}
    (hn : ∀ d < c, bitmapAt p sb d * 2 ^ p.fsbtodb < 2 ^ 31) (hb : b ≤ sb.base c + sb.bpg) :
    b * 2 ^ p.fsbtodb < 2 ^ 32 := by
  have hF := h.shift_le
  have hB : sb.bpg ≤ 32768 := h.bpg ▸ h.sizes.bpg_le
  have hfar : ∀ x, x * 2 ^ p.fsbtodb < 2 ^ 31 → b ≤ x + 65537 → b * 2 ^ p.fsbtodb < 2 ^ 32 := by
    intro x hx hbx
    have hmul : b * 2 ^ p.fsbtodb ≤ (x + 65537) * 2 ^ p.fsbtodb := Nat.mul_le_mul_right _ hbx
    have hstep : 65537 * 2 ^ p.fsbtodb ≤ 65537 * 4096 := Nat.mul_le_mul_left _ hF
    rw [Nat.add_mul] at hmul
    omega
  cases c with
  | zero =>
    have hone := first_le (p := p)
    refine hfar 0 (by omega) ?_
    unfold Sb.base at hb
    rw [h.first_dblock] at hb
    omega
  | succ c =>
    have hle := h.base_le c
    rw [sb.base_succ] at hb
    exact hfar _ (hn c (Nat.lt_succ_self c)) (by omega)

theorem Upto.put {c b : ℕ} {vol : Volume} {data : Data} (h : Apart p sb) (hc : c < sb.gcount)
    (hu : Upto p sb c vol) (hb : sb.base c ≤ b) : Upto p sb c (vol.put p b data) where
  gd := hu.gd
  fbcount := hu.fbcount
  ficount := hu.ficount
  groups d hd := by
    refine (hu.groups d hd).congr fun k _ hk => Function.update_of_ne ?_ ..
    have hend := h.end_le (c := d) (by omega)
    have hmono := sb.base_mono (c := d + 1) (d := c) (by omega)
    omega
  near := hu.near
  inodes := hu.inodes

/-! ### One group -/

/-- The superblock of a group with its descriptors is written from the first block of the group on. -/
theorem writeSuper_meets {c : ℕ} {Q : Volume → Prop} (h : Fits p sb) (hc : c < sb.gcount)
    (hnear : sb.base c * 2 ^ p.fsbtodb < 2 ^ 32)
    (hQ : ∀ vol asked, P vol → Q { vol with
      asked := asked
      disk := putBlocks (sb.base c) (.super c vol.fbcount vol.ficount ::
        (List.range sb.gdbcount).map fun k => .descs k vol.gd) vol.disk }) :
    Meets P (writeSuper p sb c) (fun _ => Q) fun _ => True := by
  unfold writeSuper
  rw [h.base_value hc]
  refine Meets.bind (Q := fun v vol => v = vol ∧ P vol) (Meets.get fun vol hP => ⟨rfl, hP⟩)
    fun v => ?_
  refine wtfs_meets (fun _ _ _ => trivial) fun vol hvol hpos => ?_
  obtain ⟨rfl, hP⟩ := hvol
  have hplace : (i32 (p.todb (sb.base c) + (sboff sb c / p.sectorsize : ℕ))).toNat /
      2 ^ p.fsbtodb = sb.base c := by
    unfold sboff at hpos ⊢
    rw [h.base_value hc] at hpos ⊢
    by_cases h0 : sb.base c = 0
    · -- the boot block is in the first block, and so is the superblock
      have hfirst : 1024 < p.bsize := by
        have hf : p.first_dblock = 0 := by
          unfold Sb.base at h0
          rw [← h.first_dblock]
          omega
        unfold Params.first_dblock at hf
        by_contra hc
        rw [if_neg hc] at hf
        omega
      have hsmall : SBOFF / p.sectorsize ≤ 1024 := Nat.div_le_self ..
      have hzero : p.todb 0 = 0 := by simp [Params.todb]
      have hval : i32 ((SBOFF / p.sectorsize : ℕ) : ℤ) = (SBOFF / p.sectorsize : ℕ) := by
        generalize SBOFF / p.sectorsize = k at hsmall
        exact i32_of_lt (by omega) (by omega)
      rw [h0, if_pos rfl, hzero, Int.zero_add, hval, Int.toNat_natCast, Nat.div_div_eq_div_mul,
        Nat.mul_comm, ← h.sectors]
      exact Nat.div_eq_of_lt hfirst
    · rw [if_neg h0, Nat.zero_div, Nat.cast_zero, Int.add_zero] at hpos ⊢
      exact (i32_todb hnear hpos).2.2
  rw [hplace]
  exact hQ v _ hP

/-- **One group**: after the groups before it, it is written as well. -/
theorem initcg_meets {c : ℕ} (h : Apart p sb) (hc : c < sb.gcount) :
    Meets (Upto p sb c) (initcg p sb c) (fun _ => Upto p sb (c + 1)) fun _ => True := by
  have hfit := h.toFits
  have hat := hfit.bitmapAt_le c
  have hle := hfit.base_le c
  have hend := h.end_le hc
  rw [sb.base_succ] at hend
  have hword : sb.base c + overhead p sb c < 2 ^ 32 := (hfit.tables c hc).trans_lt hfit.bcount
  by_cases hreach : (sb.base c + sb.bpg) * 2 ^ p.fsbtodb < 2 ^ 32
  swap
  · -- the group before it would not have been reached
    exact ⟨fun vol hu => absurd (hfit.near hu.near le_rfl) hreach⟩
  have hnear : ∀ b, b ≤ sb.base c + overhead p sb c → b * 2 ^ p.fsbtodb < 2 ^ 32 := fun b hb =>
    (Nat.mul_le_mul_right _ (by omega)).trans_lt hreach
  unfold initcg
  -- the superblock does not touch the groups before
  refine Meets.bind (Q := fun _ => Upto p sb c) ?_ fun _ => ?_
  · refine Meets.when (fun hsb => ?_) fun _ _ hu => hu
    refine writeSuper_meets hfit hc (hnear _ (Nat.le_add_right ..)) fun vol asked hu => ?_
    refine ⟨hu.gd, hu.fbcount, hu.ficount, fun d hd => ?_, hu.near, hu.inodes⟩
    refine (hu.groups d hd).congr fun k _ hk => putBlocks_outside (.inl ?_)
    have hendd := h.end_le (c := d) (by omega)
    have hmono := sb.base_mono (c := d + 1) (d := c) (by omega)
    omega
  refine Meets.bind (Q := fun v vol => v = vol ∧ Upto p sb c vol)
    (Meets.get fun vol hu => ⟨rfl, hu⟩) fun v => ?_
  refine Meets.bind (Q := fun d vol => d = descOf p sb c ∧ Upto p sb c vol) ?_ fun d => ?_
  · refine Meets.ofOption (fun _ _ _ => trivial) fun d hd vol hvol => ?_
    obtain ⟨rfl, hu⟩ := hvol
    rw [hu.gd, List.getElem?_map, List.getElem?_range hc] at hd
    exact ⟨(Option.some.inj hd).symm, hu⟩
  refine Meets.fact fun hd => ?_
  have hb : d.b_bitmap = bitmapAt p sb c := by rw [hd]; rfl
  have hi : d.i_bitmap = bitmapAt p sb c + 1 := by rw [hd]; rfl
  have ht : d.i_tables = bitmapAt p sb c + 1 + 1 := by rw [hd]; rfl
  rw [hb]
  clear hd
  -- the bitmaps
  refine Meets.bind (Q := fun _ vol => Upto p sb c vol ∧ bitmapAt p sb c * 2 ^ p.fsbtodb < 2 ^ 31 ∧
    vol.disk (bitmapAt p sb c) = .bitmap (blockMap p sb c)) ?_ fun _ => ?_
  · exact wtfsBlock_meets (hnear _ (by omega)) fun vol hu hlt =>
      ⟨hu.put h hc hle, hlt, Function.update_self ..⟩
  refine Meets.bind (Q := fun _ vol => sb.ipg / NBBY ≤ p.bsize ∧ Upto p sb c vol ∧
    bitmapAt p sb c * 2 ^ p.fsbtodb < 2 ^ 31 ∧
      vol.disk (bitmapAt p sb c) = .bitmap (blockMap p sb c) ∧
        vol.disk (bitmapAt p sb c + 1) = .bitmap (inodeMap p sb c)) ?_ fun _ => ?_
  · unfold writeInodeMap
    rw [hi]
    refine Meets.bind (Q := fun _ vol => sb.ipg / NBBY ≤ p.bsize ∧ Upto p sb c vol ∧
      bitmapAt p sb c * 2 ^ p.fsbtodb < 2 ^ 31 ∧
        vol.disk (bitmapAt p sb c) = .bitmap (blockMap p sb c))
      (Meets.assert (fun hle vol hu => ⟨hle, hu⟩) fun _ _ _ => trivial) fun _ => ?_
    refine wtfsBlock_meets (hnear _ (by omega)) fun vol hvol _ => ?_
    obtain ⟨hmap, hu, hlt, hblk⟩ := hvol
    refine ⟨hmap, hu.put h hc (by omega), hlt, ?_, Function.update_self ..⟩
    exact (Function.update_of_ne (by omega) ..).trans hblk
  -- the inode table, block by block
  refine Meets.fact fun hmap => ?_
  refine (Meets.each_range (I := fun k vol => Upto p sb c vol ∧
    bitmapAt p sb c * 2 ^ p.fsbtodb < 2 ^ 31 ∧
      vol.disk (bitmapAt p sb c) = .bitmap (blockMap p sb c) ∧
        vol.disk (bitmapAt p sb c + 1) = .bitmap (inodeMap p sb c) ∧
          ∀ j < k, vol.disk (bitmapAt p sb c + 1 + 1 + j) = .inodes fun _ => none)
      sb.itpg fun k hk => ?_).weaken (fun vol hvol => ?_) fun _ vol hvol => ?_
  · have hu32 : u32 ((d.i_tables + k : ℕ) : ℤ) = bitmapAt p sb c + 1 + 1 + k := by
      rw [ht]
      exact u32_of_lt (by omega)
    rw [hu32]
    refine wtfsBlock_meets (hnear _ (by omega)) fun vol hvol _ => ?_
    obtain ⟨hu, hlt, hblk, hino, htab⟩ := hvol
    refine ⟨hu.put h hc (by omega), hlt, (Function.update_of_ne (by omega) ..).trans hblk,
      (Function.update_of_ne (by omega) ..).trans hino, fun j hj => ?_⟩
    rcases Nat.lt_succ_iff_lt_or_eq.1 hj with hlow | rfl
    · exact (Function.update_of_ne (by omega) ..).trans (htab j hlow)
    · exact Function.update_self ..
  · exact ⟨hvol.1, hvol.2.1, hvol.2.2.1, hvol.2.2.2, fun j hj => absurd hj (Nat.not_lt_zero j)⟩
  · obtain ⟨hu, hlt, hblk, hino, htab⟩ := hvol
    refine ⟨hu.gd, hu.fbcount, hu.ficount, fun d' hd' => ?_, fun d' hd' => ?_, fun _ => hmap⟩
    · rcases Nat.lt_succ_iff_lt_or_eq.1 hd' with hlow | rfl
      · exact hu.groups d' hlow
      · exact ⟨hblk, hino, htab⟩
    · rcases Nat.lt_succ_iff_lt_or_eq.1 hd' with hlow | rfl
      · exact hu.near d' hlow
      · exact hlt

/-- **All groups.** -/
theorem groups_meet (h : Apart p sb) :
    Meets (Upto p sb 0) (each (initcg p sb) (List.range sb.gcount)) (fun _ => Upto p sb sb.gcount)
      fun _ => True :=
  Meets.each_range sb.gcount fun _ hc => initcg_meets h hc

end

end Ext2fs.Newfs
