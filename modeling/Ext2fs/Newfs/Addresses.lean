import Ext2fs.Newfs.Invariants
import Ext2fs.Newfs.Slots
import Ext2fs.Newfs.Values

/-!
# Where the writes go

`mke2fs` turns a block into a sector with a shift and the place of the superblock with a division, and
`wtfs` takes the sector in 32 bits with a sign.

* `AddressesRight` — every write goes to its place on the volume, and none of the metadata is missing;
* `Reached` — what that takes;
* `validate_right`, `initcg_right`, `fsinit_right` — the parts of a run, under these conditions;
* `formed`, `unchecked`, `no_groups`, `no_inodeMap` — what comes of it otherwise;
* **`addresses_right_iff`** — the addresses are right exactly under the conditions.
-/

namespace Ext2fs.Newfs

open Tracked Fsck Stopping

/-! ### What is to be -/

/-- The byte that a write is to go to. -/
def What.place (p : Params) (sb : Sb) : What → Option ℕ
  | .lastSector => none
  | .zap => none
  | .super c => some (if c = 0 then 1024 else sb.base c * p.bsize)
  | .block b => some (b * p.bsize)

/-- A write goes to its place and does not leave the volume, but for the check of the last sector. -/
structure Request.Right (p : Params) (sb : Sb) (r : Request) : Prop where
  place : ∀ n, r.what.place p sb = some n → r.bno * p.sectorsize = n
  inside : r.what ≠ .lastSector →
    0 ≤ r.bno ∧ r.bno * p.sectorsize + r.size ≤ (sb.bcount * p.bsize : ℕ)

/-- There is such a write. -/
def Asked (asked : List Request) (what : What) : Prop := ∃ r ∈ asked, r.what = what

/-- **The addresses are right**: superblocks, bitmaps and tables are all written, and every write goes to
its place. -/
structure AddressesRight (p : Params) (sb : Sb) (asked : List Request) : Prop where
  primary : Asked asked (.super 0)
  backups : ∀ c < sb.gcount, p.hasSb c → Asked asked (.super c)
  metadata : ∀ c < sb.gcount, ∀ b, bitmapAt p sb c ≤ b → b < sb.base c + overhead p sb c →
    Asked asked (.block b)
  right : ∀ r ∈ asked, r.Right p sb

/-- **What that takes**: the check of the last sector passes, sectors are not longer than the offset of
the superblock, and the metadata of every group is on the volume and its sectors are positive. -/
structure Reached (p : Params) (sb : Sb) : Prop where
  lastSector : 0 ≤ i32 (p.fssize - 1)
  sectorsize : p.sectorsize ≤ 1024
  gcount : 0 < sb.gcount
  inodes : sb.ipg / NBBY ≤ p.bsize
  near : ∀ c < sb.gcount, ∀ b < sb.base c + overhead p sb c,
    b < sb.bcount ∧ b * 2 ^ p.fsbtodb < 2 ^ 31

/-- A layout under the conditions. -/
structure InReach (p : Params) (sb : Sb) : Prop extends Fits p sb, Reached p sb where
  sectorsize_ge : 512 ≤ p.sectorsize
  sectorsize_dvd : p.sectorsize ∣ 1024
  ipg : sb.itpg * p.ipb = sb.ipg
  covers : u32 (sb.bcount - sb.first_dblock) ≤ sb.bpg * sb.gcount

section

variable {raw : Data → Bitmap} {p : Params} {sb : Sb} {b c : ℕ}

/-! ### The writes under the conditions -/

/-- A write that has no place of its own. -/
theorem Request.Right.unplaced {r : Request} (hnone : r.what.place p sb = none)
    (hin : r.what ≠ .lastSector →
      0 ≤ r.bno ∧ r.bno * p.sectorsize + r.size ≤ (sb.bcount * p.bsize : ℕ)) : r.Right p sb := by
  refine ⟨fun n hn => ?_, hin⟩
  rw [hnone] at hn
  cases hn

theorem Asked.cons {asked : List Request} {what : What} (h : Asked asked what) (r : Request) :
    Asked (r :: asked) what := by
  obtain ⟨r', hr', hwhat⟩ := h
  exact ⟨r', List.mem_cons_of_mem r hr', hwhat⟩

theorem asked_self (asked : List Request) (r : Request) : Asked (r :: asked) r.what :=
  ⟨r, List.mem_cons_self, rfl⟩

theorem Fits.sectorsize_pos (h : Fits p sb) : 0 < p.sectorsize := by
  have hB := h.sizes.bsize_pos
  refine Nat.pos_of_ne_zero fun h0 => ?_
  have hs := h.sectors
  rw [h0, Nat.mul_zero] at hs
  omega

/-- The sectors of a block, in bytes. -/
theorem Fits.todb_mul (h : Fits p sb) (b : ℕ) : p.todb b * p.sectorsize = (b * p.bsize : ℕ) := by
  unfold Params.todb
  rw [h.sectors]
  push_cast
  ring

/-- A near sector is not changed. -/
theorem i32_near (h : b * 2 ^ p.fsbtodb < 2 ^ 31) : i32 (p.todb b) = p.todb b := by
  have hcast : p.todb b = ((b * 2 ^ p.fsbtodb : ℕ) : ℤ) := by
    unfold Params.todb
    push_cast
    rfl
  rw [hcast]
  exact i32_of_lt (by omega) (by omega)

theorem Fits.block_right (h : Fits p sb) (hb : b < sb.bcount) :
    (⟨.block b, p.todb b, p.bsize⟩ : Request).Right p sb where
  place n hn := by
    rw [← Option.some.inj hn]
    exact h.todb_mul b
  inside _ := by
    have hmul : (b + 1) * p.bsize ≤ sb.bcount * p.bsize := Nat.mul_le_mul_right _ hb
    rw [Nat.succ_mul] at hmul
    refine ⟨Int.mul_nonneg (Int.natCast_nonneg b) (Int.pow_nonneg (by decide)), ?_⟩
    show p.todb b * p.sectorsize + p.bsize ≤ _
    rw [h.todb_mul]
    omega

/-- **A write of a near block** reaches it. -/
theorem wtfsBlock_near {P Q E : Volume → Prop} {data : Data} (hn : b * 2 ^ p.fsbtodb < 2 ^ 31)
    (h : ∀ vol, P vol → Q (vol.put p b data)) : Meets P (wtfsBlock p b data) (fun _ => Q) E := by
  have hval := i32_near hn
  have hpos : 0 ≤ i32 (p.todb b) := by
    rw [hval]
    exact Int.mul_nonneg (Int.natCast_nonneg b) (Int.pow_nonneg (by decide))
  unfold wtfsBlock
  refine wtfs_meets (fun _ _ hneg => absurd hpos (not_le.2 hneg)) fun vol hP _ => ?_
  rw [(i32_todb (by omega) hpos).2.2, hval, putBlocks_one]
  exact h vol hP

theorem rdfsBlock_near {P E : Volume → Prop} {Q : Data → Volume → Prop}
    (hn : b * 2 ^ p.fsbtodb < 2 ^ 31) (h : ∀ vol, P vol → Q (vol.disk b) vol) :
    Meets P (rdfsBlock p b) Q E := by
  have hval := i32_near hn
  have hpos : 0 ≤ i32 (p.todb b) := by
    rw [hval]
    exact Int.mul_nonneg (Int.natCast_nonneg b) (Int.pow_nonneg (by decide))
  unfold rdfsBlock
  refine Meets.bind (Q := fun _ => P)
    (Meets.assert (fun _ _ hP => hP) fun hneg => absurd hpos hneg) fun _ => ?_
  refine Meets.bind (Q := fun v vol => v = vol ∧ P vol) (Meets.get fun vol hP => ⟨rfl, hP⟩)
    fun v => Meets.pure fun vol hvol => ?_
  obtain ⟨rfl, hP⟩ := hvol
  rw [(i32_todb (by omega) hpos).2.2]
  exact h v hP

/-! ### What is written so far -/

/-- The descriptors have the addresses of the layout. -/
def Placed (p : Params) (sb : Sb) (gd : List Desc) : Prop :=
  ∀ c < sb.gcount, ∃ d, gd[c]? = some d ∧ d.b_bitmap = bitmapAt p sb c ∧
    d.i_bitmap = bitmapAt p sb c + 1 ∧ d.i_tables = bitmapAt p sb c + 1 + 1

/-- **The first `c` groups are written**, and every write so far is right. -/
structure Written (p : Params) (sb : Sb) (c : ℕ) (vol : Volume) : Prop where
  placed : Placed p sb vol.gd
  right : ∀ r ∈ vol.asked, r.Right p sb
  supers : ∀ d < c, p.hasSb d → Asked vol.asked (.super d)
  blocks : ∀ d < c, ∀ b, bitmapAt p sb d ≤ b → b < sb.base d + overhead p sb d →
    Asked vol.asked (.block b)

/-- One more write that is right. -/
theorem Written.cons {vol : Volume} {r : Request} {disk : ℕ → Data} (h : Written p sb c vol)
    (hr : r.Right p sb) :
    Written p sb c { vol with asked := r :: vol.asked, disk := disk } where
  placed := h.placed
  right r' hr' := (List.mem_cons.1 hr').elim (fun heq => heq ▸ hr) (h.right r')
  supers d hd hsb := (h.supers d hd hsb).cons r
  blocks d hd b hb hb' := (h.blocks d hd b hb hb').cons r

theorem Written.put {vol : Volume} {data : Data} (hfit : Fits p sb) (h : Written p sb c vol)
    (hb : b < sb.bcount) : Written p sb c (vol.put p b data) := h.cons (hfit.block_right hb)

/-- Descriptors change their counts only. -/
theorem Placed.set {gd : List Desc} {d : Desc} (h : Placed p sb gd) (hb : d.b_bitmap = bitmapAt p sb c)
    (hi : d.i_bitmap = bitmapAt p sb c + 1) (ht : d.i_tables = bitmapAt p sb c + 1 + 1) :
    Placed p sb (gd.set c d) := by
  intro c' hc'
  obtain ⟨d', hd', hplaces⟩ := h c' hc'
  by_cases heq : c = c'
  · subst heq
    have hlt : c < gd.length := (List.getElem?_eq_some_iff.1 hd').1
    exact ⟨d, by rw [List.getElem?_set_self hlt], hb, hi, ht⟩
  · exact ⟨d', (List.getElem?_set_ne heq).trans hd', hplaces⟩

/-! ### Before the groups -/

theorem pblocks_lt {epblock step fuel pblock : ℕ} {l : List ℕ}
    (h : pblocks epblock step fuel pblock = some l) : ∀ x ∈ l, x < epblock := by
  induction fuel generalizing pblock l with
  | zero => cases h
  | succ fuel ih =>
    unfold pblocks at h
    split at h
    · next hlt =>
      cases hrest : pblocks epblock step fuel (u32 (pblock + step : ℕ)) with
      | none =>
        rw [hrest] at h
        cases h
      | some l' =>
        rw [hrest] at h
        obtain rfl : pblock :: l' = l := Option.some.inj h
        intro x hx
        rcases List.mem_cons.1 hx with rfl | hx
        · exact hlt
        · exact ih hrest x hx
    · obtain rfl : [] = l := Option.some.inj h
      exact fun x hx => absurd hx List.not_mem_nil

/-- The loop ends where it does not come round. -/
theorem pblocks_ends {epblock step fuel pblock : ℕ} (hword : epblock + step ≤ 2 ^ 32)
    (hfuel : epblock ≤ pblock + fuel * step) :
    ∃ l, pblocks epblock step (fuel + 1) pblock = some l := by
  induction fuel generalizing pblock with
  | zero =>
    refine ⟨[], ?_⟩
    unfold pblocks
    exact if_neg (by omega)
  | succ fuel ih =>
    unfold pblocks
    split
    · next hlt =>
      rw [Nat.succ_mul] at hfuel
      have hnext : u32 ((pblock + step : ℕ) : ℤ) = pblock + step := u32_of_lt (by omega)
      have hrest : epblock ≤ pblock + step + fuel * step := by omega
      obtain ⟨l, hl⟩ := ih hrest
      rw [hnext, hl]
      exact ⟨pblock :: l, rfl⟩
    · exact ⟨[], rfl⟩

/-- The blocks of the volume are near, too. -/
theorem InReach.bcount_near (h : InReach p sb) : sb.bcount * 2 ^ p.fsbtodb ≤ 2 ^ 31 + 2 ^ 27 := by
  obtain ⟨n, hn⟩ : ∃ n, sb.gcount = n + 1 := ⟨sb.gcount - 1, by have := h.gcount; omega⟩
  obtain ⟨hlt, hnear⟩ := h.near n (by omega) (sb.base n) (by unfold overhead; omega)
  have hcov := h.covers
  rw [hn, Nat.mul_succ] at hcov
  have hbpg : sb.bpg ≤ 32768 := h.bpg ▸ h.sizes.bpg_le
  have hF := h.toFits.shift_le
  have hle : sb.bcount ≤ sb.base n + 32768 := by
    unfold Sb.base at hlt ⊢
    unfold u32 at hcov
    have hw := h.bcount
    omega
  have hmul : sb.bcount * 2 ^ p.fsbtodb ≤ (sb.base n + 32768) * 2 ^ p.fsbtodb :=
    Nat.mul_le_mul_right _ hle
  have hstep : 32768 * 2 ^ p.fsbtodb ≤ 32768 * 4096 := Nat.mul_le_mul_left _ hF
  rw [Nat.add_mul] at hmul
  omega

/-- An old superblock is wiped on the volume. -/
theorem zap_right (h : InReach p sb) {pblock pbsize : ℕ} (hsize : 1024 ≤ pbsize)
    (hlt : pblock < u32 (sb.bcount * p.bsize / pbsize : ℕ)) :
    Meets (Written p sb 0) (zap_old_sblock p sb (u32 (pblock * pbsize : ℕ) / p.sectorsize : ℕ))
      (fun _ => Written p sb 0) fun _ => False := by
  have hnop : Meets (Written p sb 0) (Pure.pure () : Making Unit) (fun _ => Written p sb 0)
      fun _ => False := Meets.pure fun _ hw => hw
  have hS := h.toFits.sectorsize_pos
  have hdvd := h.sectorsize_dvd
  have hword := u32_lt (pblock * pbsize : ℕ)
  -- the wrapped byte is not behind the exact one
  have hle := u32_le (pblock * pbsize)
  have hend : pblock * pbsize + pbsize ≤ sb.bcount * p.bsize := by
    have hdiv : pblock + 1 ≤ sb.bcount * p.bsize / pbsize := hlt.trans_le (u32_le _)
    have hmul := (Nat.le_div_iff_mul_le (by omega)).1 hdiv
    rwa [Nat.succ_mul] at hmul
  generalize u32 (pblock * pbsize : ℕ) = byte at hword hle
  have hsec : byte / p.sectorsize * p.sectorsize ≤ byte := Nat.div_mul_le_self ..
  have hround : (roundup SBSIZE p.sectorsize).value = SBSIZE :=
    congrArg Tracked.value (if_pos (Nat.mod_eq_zero_of_dvd hdvd))
  generalize byte / p.sectorsize = sec at hsec
  have hnear : sec < 2 ^ 31 := by
    have hmul : sec * 512 ≤ sec * p.sectorsize := Nat.mul_le_mul_left _ h.sectorsize_ge
    omega
  have hval : i32 (sec : ℤ) = sec := i32_of_lt (by omega) (by omega)
  unfold zap_old_sblock
  refine Meets.ite (fun _ => hnop) fun _ => Meets.ite (fun _ => hnop) fun _ => ?_
  refine Meets.ite (fun _ => Meets.ite (fun _ => ?_) fun _ => hnop) fun _ => hnop
  rw [hround]
  refine wtfs_meets (fun _ _ hneg => ?_) fun vol hw _ => hw.cons (.unplaced rfl fun _ => ?_)
  · rw [hval] at hneg
    exact absurd hneg (not_lt.2 (Int.natCast_nonneg sec))
  · have hin : sec * p.sectorsize + SBSIZE ≤ sb.bcount * p.bsize := by
      clear hround
      unfold SBSIZE
      omega
    dsimp only
    rw [hval]
    exact ⟨Int.natCast_nonneg sec, by exact_mod_cast hin⟩

/-- **Before the groups** every write is right, and nothing keeps the groups from being written. -/
theorem validate_right (h : InReach p sb) :
    Meets (Written p sb 0) (validate p sb) (fun _ => Written p sb 0) fun _ => False := by
  have hbytes : sb.bcount * p.bsize ≤ (2 ^ 31 + 2 ^ 27) * 1024 := by
    have hmul : sb.bcount * 2 ^ p.fsbtodb * p.sectorsize ≤ (2 ^ 31 + 2 ^ 27) * 1024 :=
      Nat.mul_le_mul h.bcount_near h.sectorsize
    rwa [Nat.mul_assoc, ← h.sectors] at hmul
  unfold validate
  refine Meets.bind (Q := fun _ => Written p sb 0) ?_ fun _ => Meets.each_mem _ fun pbsize hmem => ?_
  · refine wtfs_meets (fun _ _ hneg => absurd h.lastSector (not_le.2 hneg)) fun vol hw _ => ?_
    exact hw.cons (.unplaced rfl fun hne => absurd rfl hne)
  have hsize : 1024 ≤ pbsize ∧ pbsize ≤ 4096 := by
    simp only [List.mem_cons, List.not_mem_nil, or_false] at hmem
    omega
  have hfew : u32 (sb.bcount * p.bsize / pbsize : ℕ) ≤ 2 ^ 31 + 2 ^ 27 := by
    refine (u32_le _).trans (Nat.div_le_of_le_mul ?_)
    rw [Nat.mul_comm pbsize]
    exact hbytes.trans (Nat.mul_le_mul_left _ hsize.1)
  have hword : u32 (sb.bcount * p.bsize / pbsize : ℕ) + pbsize * NBBY ≤ 2 ^ 32 := by
    unfold NBBY
    omega
  have hrounds : u32 (sb.bcount * p.bsize / pbsize : ℕ) ≤
      (if pbsize = SBSIZE then 1 else 0) + (2 ^ 20 - 1) * (pbsize * NBBY) := by
    unfold NBBY
    omega
  obtain ⟨l, hl⟩ := pblocks_ends hword hrounds
  rw [show 2 ^ 20 - 1 + 1 = 2 ^ 20 by norm_num] at hl
  unfold zapAll
  refine Meets.bind (Q := fun blocks vol => blocks = l ∧ Written p sb 0 vol) ?_ fun blocks => ?_
  · refine Meets.ofOption (fun hnone => ?_) fun blocks hsome vol hw => ⟨?_, hw⟩
    · rw [hl] at hnone
      cases hnone
    · rw [hl] at hsome
      exact (Option.some.inj hsome).symm
  · refine Meets.fact fun hblocks => Meets.each_mem _ fun pblock hin => ?_
    exact zap_right h hsize.1 (pblocks_lt hl pblock (hblocks ▸ hin))

/-! ### The groups -/

/-- **A superblock with its descriptors** goes to its place. -/
theorem writeSuper_right {P Q E : Volume → Prop} (h : InReach p sb) (hc : c < sb.gcount)
    (hsb : p.hasSb c) (hQ : ∀ vol disk r, P vol → r.Right p sb → r.what = .super c →
      Q { vol with asked := r :: vol.asked, disk := disk }) :
    Meets P (writeSuper p sb c) (fun _ => Q) E := by
  have hvalue := h.toFits.base_value hc
  have hover : 1 + sb.gdbcount ≤ overhead p sb c := by
    unfold overhead
    rw [if_pos hsb]
    omega
  obtain ⟨-, hnear⟩ := h.near c hc (sb.base c) (by omega)
  obtain ⟨hlast, -⟩ := h.near c hc (sb.base c + overhead p sb c - 1) (by omega)
  have hfirst : sb.base 0 = p.first_dblock := h.first_dblock
  have hbpg : 0 < sb.bpg := h.bpg ▸ h.sizes.bpg_pos
  -- the boot block takes whole sectors
  have hboot : (sboff sb c / p.sectorsize : ℕ) * p.sectorsize = sboff sb c := by
    refine Nat.div_mul_cancel ?_
    unfold sboff SBOFF
    split
    · exact h.sectorsize_dvd
    · exact Dvd.intro 0 rfl
  have hoff : sboff sb c = if sb.base c = 0 then 1024 else 0 := by
    unfold sboff
    rw [hvalue]
    rfl
  have hbyte : sb.base c * p.bsize + sboff sb c = if c = 0 then 1024 else sb.base c * p.bsize := by
    rw [hoff]
    by_cases h0 : c = 0
    · rw [if_pos h0, h0, hfirst]
      unfold Params.first_dblock
      rcases h.sizes.bsize with hb | hb | hb <;> rw [hb] <;> decide
    · have hpos : sb.base c ≠ 0 := by
        have hle : sb.bpg * 1 ≤ sb.bpg * c := Nat.mul_le_mul_left _ (Nat.pos_of_ne_zero h0)
        unfold Sb.base
        omega
      rw [if_neg h0, if_neg hpos, Nat.add_zero]
  have hsmall : sboff sb c ≤ 1024 := by
    rw [hoff]
    split <;> omega
  have hval : i32 (p.todb (sb.base c) + (sboff sb c / p.sectorsize : ℕ)) =
      p.todb (sb.base c) + (sboff sb c / p.sectorsize : ℕ) := by
    have hle : sboff sb c / p.sectorsize ≤ sboff sb c := Nat.div_le_self ..
    have hcast : p.todb (sb.base c) = ((sb.base c * 2 ^ p.fsbtodb : ℕ) : ℤ) := by
      unfold Params.todb
      push_cast
      rfl
    rw [hcast]
    generalize sboff sb c / p.sectorsize = k at *
    by_cases h0 : sb.base c = 0
    · rw [h0, Nat.zero_mul]
      exact i32_of_lt (by omega) (by omega)
    · have hk : k = 0 := by
        rw [hoff, if_neg h0] at hle
        omega
      rw [hk]
      exact i32_of_lt (by omega) (by omega)
  have hplace : (p.todb (sb.base c) + (sboff sb c / p.sectorsize : ℕ)) * p.sectorsize =
      (sb.base c * p.bsize + sboff sb c : ℕ) := by
    rw [Int.add_mul, h.toFits.todb_mul, Nat.cast_add, ← Nat.cast_mul, hboot]
  have hpos : 0 ≤ p.todb (sb.base c) + (sboff sb c / p.sectorsize : ℕ) :=
    Int.add_nonneg (Int.mul_nonneg (Int.natCast_nonneg _) (Int.pow_nonneg (by decide)))
      (Int.natCast_nonneg _)
  unfold writeSuper
  rw [hvalue]
  refine Meets.bind (Q := fun _ => P) (Meets.get fun _ hP => hP) fun _ => ?_
  refine wtfs_meets (fun _ _ hneg => ?_) fun vol hP _ => hQ vol _ _ hP ⟨fun n hn => ?_, fun _ => ?_⟩ rfl
  · rw [hval] at hneg
    exact absurd hneg (not_lt.2 hpos)
  · rw [← Option.some.inj hn, ← hbyte]
    dsimp only
    rw [hval, hplace]
  · dsimp only
    rw [hval, hplace]
    refine ⟨hpos, ?_⟩
    have hmul : (sb.base c + (1 + sb.gdbcount)) * p.bsize ≤ sb.bcount * p.bsize :=
      Nat.mul_le_mul_right _ (by omega)
    have hB : 1024 ≤ (1 + sb.gdbcount) * p.bsize := by
      have hone : 1 * p.bsize ≤ (1 + sb.gdbcount) * p.bsize := Nat.mul_le_mul_right _ (by omega)
      rcases h.sizes.bsize with hb | hb | hb <;> omega
    rw [Nat.add_mul] at hmul
    omega

/-- **Group `c` is written up to block `e`.** -/
structure Writing (p : Params) (sb : Sb) (c e : ℕ) (vol : Volume) : Prop
    extends Written p sb c vol where
  super : p.hasSb c → Asked vol.asked (.super c)
  part : ∀ b, bitmapAt p sb c ≤ b → b < e → Asked vol.asked (.block b)
  map : bitmapAt p sb c < e → vol.disk (bitmapAt p sb c) = .bitmap (blockMap p sb c)

/-- The next block. -/
theorem Writing.put {vol : Volume} {data : Data} {e : ℕ} (hfit : Fits p sb)
    (h : Writing p sb c e vol) (he : e < sb.bcount) (hle : bitmapAt p sb c ≤ e)
    (hdata : e = bitmapAt p sb c → data = .bitmap (blockMap p sb c)) :
    Writing p sb c (e + 1) (vol.put p e data) where
  toWritten := h.toWritten.put hfit he
  super hsb := (h.super hsb).cons _
  part b hb hb' := by
    rcases Nat.lt_succ_iff_lt_or_eq.1 hb' with hlow | rfl
    · exact (h.part b hb hlow).cons _
    · exact asked_self _ _
  map _ := by
    by_cases heq : e = bitmapAt p sb c
    · rw [← hdata heq, ← heq]
      exact Function.update_self ..
    · exact (Function.update_of_ne (Ne.symm heq) ..).trans (h.map (by omega))

/-- The bitmap of the first group, where there is no other. -/
def FirstMap (p : Params) (sb : Sb) (vol : Volume) : Prop :=
  sb.gcount = 1 → vol.disk (bitmapAt p sb 0) = .bitmap (blockMap p sb 0)

/-- **One group** is written. -/
theorem initcg_right (h : InReach p sb) (hc : c < sb.gcount) :
    Meets (Written p sb c) (initcg p sb c) (fun _ vol => Written p sb (c + 1) vol ∧ FirstMap p sb vol)
      fun _ => False := by
  have hfit := h.toFits
  have hat := hfit.bitmapAt_le c
  have hword : sb.base c + overhead p sb c < 2 ^ 32 := (hfit.tables c hc).trans_lt hfit.bcount
  -- the blocks are written one after the other
  have hnext : ∀ (e : ℕ) (data : Data), bitmapAt p sb c ≤ e → e < sb.base c + overhead p sb c →
      (e = bitmapAt p sb c → data = .bitmap (blockMap p sb c)) →
      Meets (Writing p sb c e) (wtfsBlock p e data) (fun _ => Writing p sb c (e + 1))
        fun _ => False := by
    intro e data hle he hdata
    obtain ⟨hlt, hnear⟩ := h.near c hc e he
    exact wtfsBlock_near hnear fun vol hw => hw.put hfit hlt hle hdata
  unfold initcg
  refine Meets.bind (Q := fun _ => Writing p sb c (bitmapAt p sb c)) ?_ fun _ => ?_
  · have hstart : ∀ vol, Written p sb c vol → (p.hasSb c → Asked vol.asked (.super c)) →
        Writing p sb c (bitmapAt p sb c) vol := fun vol hw hsuper =>
      ⟨hw, hsuper, fun b hb hb' => absurd hb' (not_lt.2 hb), fun hlt => absurd hlt (Nat.lt_irrefl _)⟩
    refine Meets.when (fun hsb => ?_) fun hsb vol hw => hstart vol hw fun h' => absurd h' hsb
    refine writeSuper_right h hc hsb fun vol disk r hw hr hwhat => hstart _ (hw.cons hr) fun _ => ?_
    exact hwhat ▸ asked_self vol.asked r
  refine Meets.bind (Q := fun v vol => v = vol ∧ Writing p sb c (bitmapAt p sb c) vol)
    (Meets.get fun vol hw => ⟨rfl, hw⟩) fun v => ?_
  refine Meets.bind (Q := fun d vol => (d.b_bitmap = bitmapAt p sb c ∧
    d.i_bitmap = bitmapAt p sb c + 1 ∧ d.i_tables = bitmapAt p sb c + 1 + 1) ∧
      Writing p sb c (bitmapAt p sb c) vol) ?_ fun d => ?_
  · refine Meets.ofOption (fun hnone vol hvol => ?_) fun d hd vol hvol => ?_
    all_goals
      obtain ⟨rfl, hw⟩ := hvol
      obtain ⟨d', hd', hplaces⟩ := hw.placed c hc
    · rw [hnone] at hd'
      cases hd'
    · rw [hd] at hd'
      exact ⟨Option.some.inj hd' ▸ hplaces, hw⟩
  refine Meets.fact fun hplaces => ?_
  obtain ⟨hb, hi, ht⟩ := hplaces
  rw [hb]
  refine Meets.bind (hnext _ _ le_rfl (by omega) fun _ => rfl) fun _ => ?_
  refine Meets.bind (Q := fun _ => Writing p sb c (bitmapAt p sb c + 1 + 1)) ?_ fun _ => ?_
  · unfold writeInodeMap
    rw [hi]
    refine Meets.bind (Q := fun _ => Writing p sb c (bitmapAt p sb c + 1))
      (Meets.assert (fun _ _ hw => hw) fun hno => absurd h.inodes hno) fun _ => ?_
    exact hnext _ _ (by omega) (by omega) fun heq => by omega
  refine (Meets.each_range (I := fun k => Writing p sb c (bitmapAt p sb c + 1 + 1 + k)) sb.itpg
    fun k hk => ?_).relax fun _ vol hw => ⟨⟨hw.placed, hw.right, fun d hd hsb => ?_, fun d hd b hlo hhi => ?_⟩,
      fun hone => ?_⟩
  · have hu32 : u32 ((d.i_tables + k : ℕ) : ℤ) = bitmapAt p sb c + 1 + 1 + k := by
      rw [ht]
      exact u32_of_lt (by omega)
    rw [hu32]
    exact hnext _ _ (by omega) (by omega) fun heq => by omega
  · rcases Nat.lt_succ_iff_lt_or_eq.1 hd with hlow | rfl
    · exact hw.supers d hlow hsb
    · exact hw.super hsb
  · rcases Nat.lt_succ_iff_lt_or_eq.1 hd with hlow | rfl
    · exact hw.blocks d hlow b hlo hhi
    · exact hw.part b hlo (by omega)
  · obtain rfl : c = 0 := by omega
    exact hw.map (by omega)

/-- **All groups** are written. -/
theorem groups_right (h : InReach p sb) :
    Meets (Written p sb 0) (each (initcg p sb) (List.range sb.gcount))
      (fun _ vol => Written p sb sb.gcount vol ∧ FirstMap p sb vol) fun _ => False := by
  have hgcount := h.gcount
  refine (Meets.each_range (I := fun c vol => Written p sb c vol ∧ (0 < c → FirstMap p sb vol))
    sb.gcount fun c hc => ?_).weaken (fun vol hw => ⟨hw, fun h0 => absurd h0 (Nat.lt_irrefl 0)⟩)
      fun _ vol hw => ⟨hw.1, hw.2 hgcount⟩
  exact (initcg_right h hc).weaken (fun _ hw => hw.1) fun _ vol hw => ⟨hw.1, fun _ => hw.2⟩

/-! ### The first inodes and directories -/

/-- The clear bits of the first bitmap are blocks of the volume, and behind the metadata where there is
one group only. -/
def Room (p : Params) (sb : Sb) (map : Bitmap) : Prop :=
  ∀ i < sb.bpg, map.isclr i = true →
    sb.first_dblock + i < sb.bcount ∧ (sb.gcount = 1 → overhead p sb 0 ≤ i)

/-- **What `fsinit` keeps.** -/
structure Formatted (raw : Data → Bitmap) (p : Params) (sb : Sb) (vol : Volume) : Prop
    extends Written p sb sb.gcount vol where
  room : Room p sb ((vol.disk (bitmapAt p sb 0)).map raw)

/-- A block that `alloc` gives. -/
structure Given (p : Params) (sb : Sb) (b : ℕ) : Prop where
  first : b < sb.base 0 + sb.bpg
  inside : b < sb.bcount
  behind : sb.gcount = 1 → sb.base 0 + overhead p sb 0 ≤ b

/-- The blocks of the first group are near. -/
theorem Fits.first_near (h : Fits p sb) (hb : b < sb.base 0 + sb.bpg) : b * 2 ^ p.fsbtodb < 2 ^ 31 := by
  have hF := h.shift_le
  have hone := first_le (p := p)
  have hbpg : sb.bpg ≤ 32768 := h.bpg ▸ h.sizes.bpg_le
  have hbase : sb.base 0 = p.first_dblock := h.first_dblock
  have hmul : b * 2 ^ p.fsbtodb ≤ 32769 * 4096 := Nat.mul_le_mul (by omega) hF
  omega

/-- With a second group, all blocks of the first one are on the volume. -/
theorem InReach.room (h : InReach p sb) (hone : sb.gcount ≠ 1) (map : Bitmap) : Room p sb map := by
  intro i hi _
  have hgcount := h.gcount
  obtain ⟨hlt, -⟩ := h.near 1 (by omega) (sb.base 1) (by unfold overhead; omega)
  have hbase : sb.base 1 = sb.base 0 + sb.bpg := sb.base_succ 0
  have hfirst : sb.base 0 = sb.first_dblock := Nat.add_zero _
  exact ⟨by omega, fun h1 => absurd h1 hone⟩

/-- With one group, the bitmap says which are. -/
theorem InReach.room_first (h : InReach p sb) {vol : Volume} (hmap : FirstMap p sb vol) :
    Room p sb ((vol.disk (bitmapAt p sb 0)).map raw) := by
  by_cases hone : sb.gcount = 1
  swap
  · exact h.room hone _
  intro i hi hclr
  have hfirst : sb.base 0 = sb.first_dblock := Nat.add_zero _
  have hfit := h.toFits
  have hword := hfit.tables 0 h.gcount
  have hcov := h.covers
  have hbc := h.bcount
  have hbytes : sb.bpg = 8 * p.bsize := h.bpg.trans (Nat.mul_comm ..)
  have hlast : u32 ((sb.bcount : ℤ) - (cgbase sb (sb.gcount - 1)).value) =
      sb.bcount - sb.first_dblock := by
    rw [hone, Nat.sub_self, hfit.base_value h.gcount, hfirst]
    unfold u32
    omega
  have hn : sb.bcount - sb.first_dblock ≤ sb.bpg := by
    rw [hone, Nat.mul_one] at hcov
    unfold u32 at hcov
    omega
  have hbits := isclr_blockMap_of (c := 0) h.sizes h.bpg (hfit.overhead_value h.gcount) hlast hn
    (hbytes ▸ hi)
  rw [hmap hone] at hclr
  rw [show (Data.bitmap (blockMap p sb 0)).map raw = blockMap p sb 0 from rfl, hbits, hone,
    if_pos rfl, decide_eq_true_iff] at hclr
  exact ⟨by omega, fun _ => hclr.1⟩

/-- **A write elsewhere** leaves the bitmap alone. -/
theorem Formatted.put {vol : Volume} {data : Data} (h : InReach p sb) (hw : Formatted raw p sb vol)
    (hb : b < sb.bcount) (hout : sb.gcount = 1 → b ≠ bitmapAt p sb 0) :
    Formatted raw p sb (vol.put p b data) where
  toWritten := hw.toWritten.put h.toFits hb
  room := by
    by_cases hone : sb.gcount = 1
    · intro i hi hclr
      have hsame : (vol.put p b data).disk (bitmapAt p sb 0) = vol.disk (bitmapAt p sb 0) :=
        Function.update_of_ne (Ne.symm (hout hone)) ..
      rw [hsame] at hclr
      exact hw.room i hi hclr
    · exact h.room hone _

/-- Metadata behind the bitmap. -/
theorem wtfsBlock_behind {data : Data} (h : InReach p sb) (hne : b ≠ bitmapAt p sb 0)
    (hb : b < sb.base 0 + overhead p sb 0) :
    Keeps (Formatted raw p sb) (wtfsBlock p b data) := by
  obtain ⟨hlt, hnear⟩ := h.near 0 h.gcount b hb
  exact wtfsBlock_near hnear fun vol hw => hw.put h hlt fun _ => hne

/-- A block that was given. -/
theorem wtfsBlock_given {data : Data} (h : InReach p sb) (hb : Given p sb b) :
    Keeps (Formatted raw p sb) (wtfsBlock p b data) := by
  have hat := h.toFits.bitmapAt_le 0
  refine wtfsBlock_near (h.toFits.first_near hb.first) fun vol hw => hw.put h hb.inside fun hone => ?_
  have := hb.behind hone
  omega

/-- Descriptors change their counts only. -/
theorem Formatted.memory {vol : Volume} {d : Desc} {fb fi : ℕ} (hw : Formatted raw p sb vol)
    (hb : d.b_bitmap = bitmapAt p sb 0) (hi : d.i_bitmap = bitmapAt p sb 0 + 1)
    (ht : d.i_tables = bitmapAt p sb 0 + 1 + 1) :
    Formatted raw p sb { vol with gd := vol.gd.set 0 d, fbcount := fb, ficount := fi } :=
  ⟨⟨hw.placed.set hb hi ht, hw.right, hw.supers, hw.blocks⟩, hw.room⟩

/-- The descriptor of the first group. -/
theorem first_desc {v : Volume} (h : InReach p sb) :
    Meets (fun vol => v = vol ∧ Formatted raw p sb vol) (Stopping.ofOption v.gd[0]?)
      (fun d vol => (d.b_bitmap = bitmapAt p sb 0 ∧ d.i_bitmap = bitmapAt p sb 0 + 1 ∧
        d.i_tables = bitmapAt p sb 0 + 1 + 1) ∧ v = vol ∧ Formatted raw p sb vol)
      (Formatted raw p sb) := by
  refine Meets.ofOption (fun _ vol hvol => hvol.2) fun d hd vol hvol => ⟨?_, hvol⟩
  obtain ⟨rfl, hw⟩ := hvol
  obtain ⟨d', hd', hplaces⟩ := hw.placed 0 h.gcount
  rw [hd] at hd'
  exact Option.some.inj hd' ▸ hplaces

/-- **`alloc`** gives blocks of the volume. -/
theorem alloc_right (h : InReach p sb) (size mode : ℕ) :
    Meets (Formatted raw p sb) (alloc raw p sb size mode)
      (fun b vol => (b ≠ 0 → Given p sb b) ∧ Formatted raw p sb vol) (Formatted raw p sb) := by
  have hat := h.toFits.bitmapAt_le 0
  obtain ⟨hlt, hnear⟩ := h.near 0 h.gcount (bitmapAt p sb 0) (by omega)
  unfold alloc
  refine Meets.bind (Q := fun v vol => v = vol ∧ Formatted raw p sb vol)
    (Meets.get fun vol hw => ⟨rfl, hw⟩) fun v => (first_desc h).bind fun d => ?_
  refine Meets.fact fun hplaces => ?_
  obtain ⟨hb, hi, ht⟩ := hplaces
  refine Meets.ite (fun _ => Meets.pure fun _ hvol => ⟨fun h0 => absurd rfl h0, hvol.2⟩) fun _ => ?_
  refine Meets.ite (fun _ => Meets.pure fun _ hvol => ⟨fun h0 => absurd rfl h0, hvol.2⟩) fun _ => ?_
  unfold searchBlock
  rw [hb]
  refine Meets.bind (Q := fun data vol => Room p sb (Data.map raw data) ∧ Formatted raw p sb vol)
    (rdfsBlock_near hnear fun vol hvol => ⟨hvol.2.room, hvol.2⟩) fun data => Meets.fact fun hroom => ?_
  rcases firstClear_spec (data.map raw) (sb.bpg / NBBY) with ⟨bno, hbno, hin, hclr, -⟩ | ⟨hnone, -⟩
  swap
  · rw [hnone]
    exact Meets.pure fun vol hw => ⟨fun h0 => absurd rfl h0, hw⟩
  have hlow : bno < sb.bpg := by
    unfold NBBY at hin
    omega
  obtain ⟨hvol, hbehind⟩ := hroom bno hlow hclr
  have hbase : sb.base 0 = sb.first_dblock := Nat.add_zero _
  have hword := h.bcount
  rw [hbno]
  show Meets _ (takeBlock p sb d (data.map raw) mode bno) _ _
  unfold takeBlock
  rw [hb]
  refine Meets.bind (Q := fun _ => Formatted raw p sb) (wtfsBlock_near hnear fun vol hw => ?_)
    fun _ => Meets.bind (Q := fun _ => Formatted raw p sb) (Meets.modify fun vol hw => ?_)
      fun _ => Meets.pure fun vol hw => ⟨fun _ => ?_, hw⟩
  · refine ⟨hw.toWritten.put h.toFits hlt, fun i hi' hclr' => hroom i hi' ?_⟩
    have hdisk : (vol.put p (bitmapAt p sb 0) (.bitmap ((data.map raw).setbit bno))).disk
        (bitmapAt p sb 0) = .bitmap ((data.map raw).setbit bno) := Function.update_self ..
    have hmap : (Data.bitmap ((data.map raw).setbit bno)).map raw = (data.map raw).setbit bno := rfl
    rw [hdisk, hmap, Bitmap.isclr_setbit] at hclr'
    by_cases heq : i = bno
    · rw [heq]
      exact hclr
    · rwa [Function.update_of_ne heq] at hclr'
  · exact hw.memory rfl hi ht
  · have hval : u32 ((sb.first_dblock + bno : ℕ) : ℤ) = sb.first_dblock + bno := u32_of_lt (by omega)
    rw [hval]
    exact ⟨by omega, hvol, fun hone => by have := hbehind hone; omega⟩

theorem allocOrStop_right (h : InReach p sb) (size mode : ℕ) :
    Meets (Formatted raw p sb) (allocOrStop raw p sb size mode)
      (fun b vol => Given p sb b ∧ Formatted raw p sb vol) (Formatted raw p sb) := by
  unfold allocOrStop
  refine (alloc_right h size mode).bind fun b => Meets.fact fun hb => ?_
  refine Meets.bind (Q := fun _ vol => Given p sb b ∧ Formatted raw p sb vol) ?_ fun _ =>
    Meets.pure fun _ hvol => hvol
  exact Meets.assert (fun hne _ hw => ⟨hb hne, hw⟩) fun _ _ hw => hw

/-- **`iput`** writes to the bitmap and the table of the first group. -/
theorem iput_right (h : InReach p sb) (ip : Node) (ino : ℕ) :
    Keeps (Formatted raw p sb) (iput raw p sb ip ino) := by
  have hat := h.toFits.bitmapAt_le 0
  obtain ⟨-, hnear⟩ := h.near 0 h.gcount (bitmapAt p sb 0 + 1) (by omega)
  have hget : Meets (Formatted raw p sb) Stopping.get (fun v vol => v = vol ∧ Formatted raw p sb vol)
      (Formatted raw p sb) := Meets.get fun vol hw => ⟨rfl, hw⟩
  have hmark : Keeps (Formatted raw p sb) (markInode raw p sb ino) := by
    have hcg : (sblock p sb).ino_to_cg ino = 0 := Nat.div_zero _
    unfold markInode
    simp only [hcg]
    refine hget.bind fun v => (first_desc h).bind fun d => Meets.fact fun hd => ?_
    refine (first_desc h).bind fun first => Meets.fact fun hfirst => ?_
    obtain ⟨-, hi, -⟩ := hfirst
    refine Meets.bind (Q := fun _ => Formatted raw p sb)
      (Meets.assert (fun _ _ hvol => hvol.2) fun _ _ hvol => hvol.2) fun _ => ?_
    rw [hi]
    refine Meets.bind (Q := fun _ => Formatted raw p sb) (rdfsBlock_near hnear fun _ hw => hw)
      fun data => Meets.bind (Q := fun _ => Formatted raw p sb) ?_ fun _ => ?_
    · unfold setInodeBit
      rw [hi]
      exact (Keeps.assert _).bind fun _ => wtfsBlock_behind h (by omega) (by omega)
    · exact Meets.modify fun vol hw => hw.memory hd.1 hd.2.1 hd.2.2
  unfold iput
  refine (Keeps.when hmark).bind fun _ => ?_
  refine Meets.bind (Q := fun _ vol => ino < u32 (sb.ipg * sb.gcount : ℕ) ∧ Formatted raw p sb vol)
    (Meets.assert (fun hlt _ hw => ⟨hlt, hw⟩) fun _ _ hw => hw) fun _ => Meets.fact fun hlt => ?_
  -- the table has a block for the inode
  have hblk : (ino - 1) % sb.ipg / p.ipb < sb.itpg := by
    have hpos : 0 < sb.ipg := Nat.pos_of_ne_zero fun h0 => by
      rw [h0, Nat.zero_mul] at hlt
      exact Nat.not_lt_zero _ hlt
    refine Nat.div_lt_of_lt_mul ?_
    rw [Nat.mul_comm, h.ipg]
    exact Nat.mod_lt _ hpos
  unfold putInode
  refine hget.bind fun v => ?_
  refine Meets.bind (Q := fun b vol => (b ≠ bitmapAt p sb 0 ∧ b < sb.base 0 + overhead p sb 0) ∧
    Formatted raw p sb vol) ?_ fun b => Meets.fact fun hb => ?_
  · refine Meets.ofOption (fun _ _ hvol => hvol.2) fun b hb vol hvol => ⟨?_, hvol.2⟩
    obtain ⟨rfl, hw⟩ := hvol
    obtain ⟨d, hd, -, -, ht⟩ := hw.placed 0 h.gcount
    rw [ino_to_fsba_eq, hd] at hb
    have hval : d.i_tables + (ino - 1) % sb.ipg / p.ipb = b := Option.some.inj hb
    generalize (ino - 1) % sb.ipg / p.ipb = k at hblk hval
    omega
  · obtain ⟨-, hnear'⟩ := h.near 0 h.gcount b hb.2
    exact Meets.bind (Q := fun _ => Formatted raw p sb) (rdfsBlock_near hnear' fun _ hw => hw)
      fun _ => wtfsBlock_behind h hb.1 hb.2

/-- **The first inodes and directories.** -/
theorem fsinit_right (h : InReach p sb) : Keeps (Formatted raw p sb) (fsinit raw p sb) := by
  have hresize : sb.resize → Keeps (Formatted raw p sb) (init_resizeino raw p sb) := by
    intro hres
    have hat : bitmapAt p sb 0 = sb.base 0 + (1 + sb.gdbcount + sb.reserved_ngdb) := by
      unfold bitmapAt
      rw [if_pos (hasSb_zero p), if_pos hres]
    have hsum := h.toFits.bitmapAt_le 0
    have hword := (h.tables 0 h.gcount).trans_lt h.bcount
    unfold init_resizeino
    refine (allocOrStop_right h _ _).bind fun dindir => Meets.fact fun hgiven => ?_
    refine Meets.bind (Q := fun _ => Formatted raw p sb) (Meets.each_mem _ fun i hi => ?_) fun _ =>
      Keeps.bind (wtfsBlock_given h hgiven) fun _ => iput_right h _ _
    have hlt := (List.mem_range'_1.1 hi).2
    refine Keeps.bind (Keeps.assert _) fun _ => Keeps.bind (Keeps.assert _) fun _ => ?_
    rw [h.toFits.base_value h.gcount, u32_of_lt (by omega)]
    exact wtfsBlock_behind h (by omega) (by omega)
  have hlost : Keeps (Formatted raw p sb) (init_lostfound raw p sb) := by
    unfold init_lostfound
    refine (allocOrStop_right h _ _).bind fun blk => Meets.fact fun hgiven => ?_
    have hgather := Meets.gather (n := nblks_lostfound p - 1) (E := Formatted raw p sb)
      (I := fun l vol => (∀ b ∈ l, Given p sb b) ∧ Formatted raw p sb vol) []
      (x := allocOrStop raw p sb p.bsize 0) fun l => Meets.fact fun hl =>
        (allocOrStop_right h _ _).relax fun b vol hvol => ⟨fun b' hb' => ?_, hvol.2⟩
    swap
    · rcases List.mem_append.1 hb' with hb' | hb'
      · exact hl b' hb'
      · exact List.mem_singleton.1 hb' ▸ hvol.1
    refine Meets.bind (hgather.strengthen fun vol hw => ⟨fun _ hb => absurd hb List.not_mem_nil, hw⟩)
      fun blks => Meets.fact fun _ => Meets.fact fun hblks => ?_
    refine Keeps.bind (wtfsBlock_given h hgiven) fun _ => ?_
    refine Meets.bind (Q := fun _ => Formatted raw p sb) (Meets.each_mem _ fun b hb => ?_) fun _ =>
      iput_right h _ _
    exact wtfsBlock_given h (hblks b hb)
  have hroot : Keeps (Formatted raw p sb) (init_root raw p sb) := by
    unfold init_root
    refine (allocOrStop_right h _ _).bind fun blk => Meets.fact fun hgiven => ?_
    exact Keeps.bind (wtfsBlock_given h hgiven) fun _ => iput_right h _ _
  exact Keeps.bind (Meets.when hresize fun _ _ hw => hw) fun _ => hlost.bind fun _ => hroot

/-- **A run under the conditions**: all metadata is written, and every write is right. -/
theorem make_right (h : InReach p sb) {t : Totals} (hplaced : Placed p sb (blank t).gd) :
    Written p sb sb.gcount (make raw p sb t).2 := by
  have hnever : ∀ {x : Making Unit} {P Q : Volume → Prop}, Meets P x (fun _ => Q) (fun _ => False) →
      Meets P x (fun _ => Q) (Written p sb sb.gcount) := fun hx => hx.loosen fun _ hf => hf.elim
  have hfs : Meets (fun vol => Written p sb sb.gcount vol ∧ FirstMap p sb vol) (fsinit raw p sb)
      (fun _ => Written p sb sb.gcount) (Written p sb sb.gcount) :=
    ((fsinit_right h).weaken (fun vol hw => ⟨hw.1, h.room_first hw.2⟩) fun _ _ hw => hw.toWritten).loosen
      fun _ hw => hw.toWritten
  have hrun : Meets (Written p sb 0) (do
      validate p sb
      construct raw p sb) (fun _ => Written p sb sb.gcount) (Written p sb sb.gcount) := by
    refine (hnever (validate_right h)).bind fun _ => (hnever (groups_right h)).bind fun _ => ?_
    refine hfs.bind fun _ => writeSuper_right h h.gcount (hasSb_zero p) fun vol disk r hw hr _ => ?_
    exact hw.cons hr
  refine hrun.always ⟨hplaced, fun r hr => absurd hr List.not_mem_nil, fun d hd => ?_, fun d hd => ?_⟩
  · exact absurd hd (Nat.not_lt_zero d)
  · exact absurd hd (Nat.not_lt_zero d)

/-! ### What comes of it otherwise -/

/-- Only blocks are written as blocks. -/
theorem ne_block {what : What} (h : what = .lastSector ∨ what = .zap ∨ ∃ c, what = .super c) (b : ℕ) :
    what ≠ .block b := by
  rcases h with rfl | rfl | ⟨c, rfl⟩ <;> exact fun hc => What.noConfusion hc

/-- How a write looks: its sector has passed through 32 bits, and blocks are written as a whole. -/
structure Formed (p : Params) (r : Request) : Prop where
  low : r.bno < 2 ^ 31
  size : ∀ b, r.what = .block b → r.size = p.bsize

/-- **All writes of a run** look like this. -/
theorem formed {t : Totals} : ∀ r ∈ (make raw p sb t).2.asked, Formed p r := by
  have hother : ∀ {what : What} (bno : ℤ) (size : ℕ), (∀ b, what ≠ .block b) →
      Formed p ⟨what, i32 bno, size⟩ := fun bno size hne =>
    ⟨i32_lt bno, fun b hb => absurd hb (hne b)⟩
  have hblock : ∀ (b : ℕ) (x : ℤ), Formed p ⟨.block b, i32 x, p.bsize⟩ := fun b x =>
    ⟨i32_lt x, fun _ _ => rfl⟩
  have hrobust : Robust p (Asks (fun _ => True) (Formed p)) := robust_asks fun b => hblock b _
  have hrun : Keeps (Asks (fun _ => True) (Formed p)) (do
      validate p sb
      construct raw p sb) := by
    refine (validate_keeps ?_ fun bno size => ?_).bind fun _ => construct_keeps hrobust fun c => ?_
    · exact wtfs_asks _ (hother _ _ (ne_block (.inl rfl)))
    · exact wtfs_asks _ (hother _ _ (ne_block (.inr (.inl rfl))))
    · exact writeSuper_asks fun bno size => hother _ _ (ne_block (.inr (.inr ⟨c, rfl⟩)))
  have hblank : Asks (fun _ => True) (Formed p) (blank t) :=
    ⟨trivial, fun r hr => absurd hr List.not_mem_nil⟩
  exact (hrun.always hblank).asked

/-- Where the check of the last sector fails, nothing else is written. -/
theorem unchecked {t : Totals} (h : i32 (p.fssize - 1) < 0) :
    ∀ r ∈ (make raw p sb t).2.asked, r.what = .lastSector := by
  have hcheck : Meets (fun vol => vol.asked = []) (wtfs p .lastSector (p.fssize - 1) p.sectorsize [])
      (fun _ _ => False) fun vol => ∀ r ∈ vol.asked, r.what = .lastSector := by
    refine wtfs_meets (fun vol hvol _ r hr => ?_) fun _ _ hpos => absurd hpos (not_le.2 h)
    rw [hvol] at hr
    rw [List.mem_singleton.1 hr]
  have hrun : Meets (fun vol => vol.asked = []) (do
      validate p sb
      construct raw p sb) (fun _ vol => ∀ r ∈ vol.asked, r.what = .lastSector)
        fun vol => ∀ r ∈ vol.asked, r.what = .lastSector := by
    refine Meets.bind (Q := fun _ _ => False) ?_ fun _ => ⟨fun _ hf => hf.elim⟩
    exact Meets.bind_never hcheck
  exact hrun.always rfl

/-- The check of the volume asks for neither superblocks nor metadata. -/
theorem validate_asks {C : List Desc → Prop} {G : Request → Prop}
    (h : ∀ bno size, G ⟨.lastSector, i32 bno, size⟩ ∧ G ⟨.zap, i32 bno, size⟩) :
    Keeps (Asks C G) (validate p sb) :=
  validate_keeps (wtfs_asks _ (h _ _).1) fun _ _ => wtfs_asks _ (h _ _).2

/-- Without a group there is no superblock. -/
theorem no_groups {t : Totals} (hgd : t.gd = []) (h0 : sb.gcount = 0) :
    ∀ r ∈ (make raw p sb t).2.asked, r.what ≠ .super 0 := by
  have hkeep : Keeps (Asks (· = []) fun r => r.what ≠ .super 0) (validate p sb) :=
    validate_asks fun _ _ => ⟨fun hc => What.noConfusion hc, fun hc => What.noConfusion hc⟩
  -- the first block that is asked for is not given
  have halloc : ∀ size mode, Meets (Asks (· = []) fun r => r.what ≠ .super 0)
      (allocOrStop raw p sb size mode) (fun _ _ => False) (Asks (· = []) fun r => r.what ≠ .super 0) := by
    intro size mode
    refine Meets.bind_never ?_
    unfold alloc
    refine Meets.bind (Q := fun v vol => v = vol ∧ Asks (· = []) (fun r => r.what ≠ .super 0) vol)
      (Meets.get fun vol hvol => ⟨rfl, hvol⟩) fun v => Meets.bind_never ?_
    refine Meets.ofOption (fun _ _ hvol => hvol.2) fun d hd vol hvol => ?_
    obtain ⟨rfl, hnil⟩ := hvol
    rw [hnil.gd] at hd
    cases hd
  have hlost : Meets (Asks (· = []) fun r => r.what ≠ .super 0) (init_lostfound raw p sb)
      (fun _ _ => False) (Asks (· = []) fun r => r.what ≠ .super 0) := by
    unfold init_lostfound
    exact Meets.bind_never (halloc _ _)
  have hresize : Keeps (Asks (· = []) fun r => r.what ≠ .super 0) (init_resizeino raw p sb) := by
    unfold init_resizeino
    exact Meets.bind_never (halloc _ _)
  have hrun : Keeps (Asks (· = []) fun r => r.what ≠ .super 0) (do
      validate p sb
      construct raw p sb) := by
    refine hkeep.bind fun _ => ?_
    unfold construct
    rw [h0]
    refine Keeps.bind (Keeps.pure ()) fun _ => Meets.bind_never ?_
    unfold fsinit
    exact Meets.bind (Keeps.when hresize) fun _ => Meets.bind_never hlost
  have hblank : Asks (· = []) (fun r => r.what ≠ .super 0) (blank t) := by
    refine ⟨?_, fun r hr => absurd hr List.not_mem_nil⟩
    show t.gd.map _ = []
    rw [hgd, List.map_nil]
  exact (hrun.always hblank).asked

/-- **With too many inodes** the first inode bitmap is never written. -/
theorem no_inodeMap {t : Totals} (hbig : ¬sb.ipg / NBBY ≤ p.bsize) (hpos : 0 < sb.gcount)
    (hplaced : Placed p sb (blank t).gd) :
    ¬Asked (make raw p sb t).2.asked (.block (bitmapAt p sb 0 + 1)) := by
  -- the number of the block plays no part
  obtain ⟨e, he⟩ : ∃ e, e = bitmapAt p sb 0 + 1 := ⟨_, rfl⟩
  rw [← he]
  have hkeep : Keeps (Asks (Placed p sb) fun r => r.what ≠ .block e)
      (validate p sb) :=
    validate_asks fun _ _ => ⟨ne_block (.inl rfl) _, ne_block (.inr (.inl rfl)) _⟩
  have hother : ∀ b data, b ≠ e →
      Keeps (Asks (Placed p sb) fun r => r.what ≠ .block e) (wtfsBlock p b data) :=
    fun b data hne => wtfs_asks [data] fun hc => hne (What.block.inj hc)
  have hstop : ∀ d, Meets (Asks (Placed p sb) fun r => r.what ≠ .block e) (writeInodeMap p sb d 0)
      (fun _ _ => False) (Asks (Placed p sb) fun r => r.what ≠ .block e) := fun d =>
    Meets.bind_never (Meets.assert (fun hle => absurd hle hbig) fun _ _ hvol => hvol)
  have hsuper : Keeps (Asks (Placed p sb) fun r => r.what ≠ .block e) (writeSuper p sb 0) :=
    writeSuper_asks fun _ _ => ne_block (.inr (.inr ⟨0, rfl⟩)) e
  have hfirst : Meets (Asks (Placed p sb) fun r => r.what ≠ .block e) (initcg p sb 0)
      (fun _ _ => False) (Asks (Placed p sb) fun r => r.what ≠ .block e) := by
    unfold initcg
    refine Meets.bind (Keeps.when hsuper) fun _ => ?_
    refine Meets.bind (Q := fun v vol => v = vol ∧
      Asks (Placed p sb) (fun r => r.what ≠ .block e) vol)
        (Meets.get fun vol hvol => ⟨rfl, hvol⟩) fun v => ?_
    refine Meets.bind (Q := fun d vol => d.b_bitmap ≠ e ∧
      Asks (Placed p sb) (fun r => r.what ≠ .block e) vol) ?_ fun d => Meets.fact fun hb =>
        Meets.bind (hother _ _ hb) fun _ => Meets.bind_never (hstop d)
    refine Meets.ofOption (fun _ _ hvol => hvol.2) fun d hd vol hvol => ?_
    obtain ⟨rfl, hvol⟩ := hvol
    obtain ⟨d', hd', hb, -⟩ := hvol.gd 0 hpos
    rw [hd] at hd'
    obtain rfl := Option.some.inj hd'
    exact ⟨by omega, hvol⟩
  have hrun : Keeps (Asks (Placed p sb) fun r => r.what ≠ .block e) (do
      validate p sb
      construct raw p sb) := by
    obtain ⟨n, hn⟩ : ∃ n, sb.gcount = n + 1 := ⟨sb.gcount - 1, by omega⟩
    refine hkeep.bind fun _ => ?_
    unfold construct
    refine Meets.bind_never ?_
    rw [hn, List.range_succ_eq_map]
    exact Meets.bind_never hfirst
  rintro ⟨r, hr, hwhat⟩
  exact (hrun.always ⟨hplaced, fun r hr => absurd hr List.not_mem_nil⟩).asked r hr hwhat

/-! ### When the addresses are right -/

/-- The addresses in a descriptor, where they are words. -/
theorem descriptor_places (h : bitmapAt p sb c + 1 + 1 < 2 ^ 32) :
    (descriptor p sb c).value.b_bitmap = bitmapAt p sb c ∧
      (descriptor p sb c).value.i_bitmap = bitmapAt p sb c + 1 ∧
        (descriptor p sb c).value.i_tables = bitmapAt p sb c + 1 + 1 := by
  have hb : (bitmapBlock p sb c).value = bitmapAt p sb c := bitmapBlock_yields.value_eq (by omega)
  have hi : (Tracked.add 32 (bitmapBlock p sb c).value 1).value = bitmapAt p sb c + 1 := by
    rw [hb]
    exact Nat.mod_eq_of_lt (by omega)
  have ht : (Tracked.add 32 (Tracked.add 32 (bitmapBlock p sb c).value 1).value 1).value =
      bitmapAt p sb c + 1 + 1 := by
    rw [hi]
    exact Nat.mod_eq_of_lt h
  obtain ⟨eb, ei, et⟩ := descriptor_value p sb c
  exact ⟨eb.trans hb, ei.trans hi, et.trans ht⟩

theorem Laid.placed {t : Totals} (hl : Laid p sb t)
    (hnear : ∀ c < sb.gcount, sb.base c + overhead p sb c ≤ sb.bcount) :
    Placed p sb (blank t).gd := by
  intro c hc
  have hle := hnear c hc
  have hat : bitmapAt p sb c + 1 + 1 + sb.itpg = sb.base c + overhead p sb c := by
    unfold bitmapAt overhead
    omega
  have hword := hl.bcount
  have hplaces := @descriptor_places p sb c (by omega)
  refine ⟨{ (descriptor p sb c).value with ndirs := 0 }, ?_, hplaces⟩
  show (t.gd.map _)[c]? = _
  rw [hl.gd, List.getElem?_map, List.getElem?_map, List.getElem?_range hc]
  rfl

theorem Laid.inReach {t : Totals} (hl : Laid p sb t) (h : Sizes p)
    (hs : p.bsize = 2 ^ p.fsbtodb * p.sectorsize) (hpow : powerof2 p.sectorsize)
    (hge : 512 ≤ p.sectorsize) (hr : Reached p sb) : InReach p sb := by
  have htables : ∀ c < sb.gcount, sb.base c + overhead p sb c ≤ sb.bcount := fun c hc => by
    obtain ⟨hlt, -⟩ := hr.near c hc (sb.base c + overhead p sb c - 1) (by unfold overhead; omega)
    omega
  refine ⟨⟨h, hs, hl.bpg, hl.first_dblock, hl.bcount, htables⟩, hr, hge, ?_, ?_, ?_⟩
  · have hlog := powerof2_log2 (by omega) hpow
    have hle : p.sectorsize.log2 ≤ 10 := by
      by_contra hc
      have hlt : 2 ^ 10 < 2 ^ p.sectorsize.log2 := Nat.pow_lt_pow_right (by decide) (by omega)
      have := hr.sectorsize
      omega
    rw [hlog]
    exact Nat.pow_dvd_pow 2 hle
  · rw [hl.tables.1]
    exact Nat.div_mul_cancel hl.tables.2
  · rw [Nat.mul_comm]
    exact (howmany_le_iff (hl.bpg ▸ h.bpg_pos)).1 hl.gcount.ge

/-- What right addresses take. -/
theorem AddressesRight.reached {t : Totals} (hl : Laid p sb t) (h : Sizes p)
    (hs : p.bsize = 2 ^ p.fsbtodb * p.sectorsize)
    (hr : AddressesRight p sb (make raw p sb t).2.asked) : Reached p sb := by
  have hB := h.bsize_pos
  have hS : 0 < p.sectorsize := Nat.pos_of_ne_zero fun h0 => by
    rw [h0, Nat.mul_zero] at hs
    omega
  have hpos : 0 < sb.gcount := by
    by_contra h0
    obtain ⟨r, hmem, hwhat⟩ := hr.primary
    have hnone : sb.gcount = 0 := by omega
    refine no_groups ?_ hnone r hmem hwhat
    rw [hl.gd, hnone]
    rfl
  have hnear : ∀ c < sb.gcount, ∀ b < sb.base c + overhead p sb c,
      b < sb.bcount ∧ b * 2 ^ p.fsbtodb < 2 ^ 31 := by
    intro c hc b hb
    have hat : bitmapAt p sb c + 1 + 1 + sb.itpg = sb.base c + overhead p sb c := by
      unfold bitmapAt overhead
      omega
    -- the last block of the metadata is the one that counts
    obtain ⟨e, he⟩ : ∃ e, sb.base c + overhead p sb c = e + 1 :=
      ⟨sb.base c + overhead p sb c - 1, by omega⟩
    obtain ⟨r, hmem, hwhat⟩ := hr.metadata c hc e (by omega) (by omega)
    obtain ⟨hlow, hsize⟩ := formed r hmem
    obtain ⟨hplace, hin⟩ := hr.right r hmem
    have hbyte := hplace (e * p.bsize) (by rw [hwhat]; rfl)
    obtain ⟨-, hend⟩ := hin (by rw [hwhat]; exact fun hc => What.noConfusion hc)
    rw [hbyte, hsize e hwhat] at hend
    have hend' : (e + 1) * p.bsize ≤ sb.bcount * p.bsize := by
      rw [Nat.succ_mul]
      exact_mod_cast hend
    have hbno : r.bno = (e * 2 ^ p.fsbtodb : ℕ) := by
      have hmul : r.bno * p.sectorsize = ((e * 2 ^ p.fsbtodb : ℕ) : ℤ) * p.sectorsize := by
        rw [hbyte, hs]
        push_cast
        ring
      exact Int.eq_of_mul_eq_mul_right (by omega) hmul
    have hle := Nat.le_of_mul_le_mul_right hend' hB
    have hsec : b * 2 ^ p.fsbtodb ≤ e * 2 ^ p.fsbtodb := Nat.mul_le_mul_right _ (by omega)
    omega
  refine ⟨?_, ?_, hpos, ?_, hnear⟩
  · by_contra hneg
    obtain ⟨r, hmem, hwhat⟩ := hr.primary
    have hlast := unchecked (not_le.1 hneg) r hmem
    rw [hlast] at hwhat
    cases hwhat
  · obtain ⟨r, hmem, hwhat⟩ := hr.primary
    have hbyte := (hr.right r hmem).place 1024 (by rw [hwhat]; rfl)
    have hdvd : (p.sectorsize : ℤ) ∣ 1024 := ⟨r.bno, by rw [Int.mul_comm]; exact hbyte.symm⟩
    exact_mod_cast Int.le_of_dvd (by decide) hdvd
  · by_contra hbig
    refine no_inodeMap hbig hpos (hl.placed fun c hc => ?_)
      (hr.metadata 0 hpos _ (Nat.le_succ _) ?_)
    · obtain ⟨hlt, -⟩ := hnear c hc (sb.base c + overhead p sb c - 1) (by unfold overhead; omega)
      omega
    · unfold bitmapAt overhead
      omega

/-- **When the addresses are right**: for every call that is accepted, however its run ends, exactly under
the conditions. -/
theorem addresses_right_iff (raw : Data → Bitmap) (o : Options) (hv : o.Valid)
    (ha : Accepts (main o).value) (hge : 512 ≤ o.sectorsize) :
    AddressesRight (main o).value (newfs o).value.1 (image raw o).2.asked ↔
      Reached (main o).value (newfs o).value.1 := by
  have h : Sizes (main o).value := ha.sizes hv.inodesize hv.minfree
  have hl := mke2fs_laid h
  unfold image
  rw [newfs_value]
  generalize (mke2fs (main o).value).value = t at hl ⊢
  constructor
  · exact fun hr => hr.reached hl h ha.sectors
  · intro hr
    have hin := hl.inReach h ha.sectors ha.sectorsize_pow.2 hge hr
    have hw := @make_right raw _ _ hin _ (hl.placed hin.tables)
    exact ⟨hw.supers 0 hin.gcount (hasSb_zero _), hw.supers, hw.blocks, hw.right⟩

end

/-- With sectors of 512 bytes the addresses are right. -/
theorem tinyImage_addresses : AddressesRight (main (tinyImage 24)).value (newfs (tinyImage 24)).value.1
    (image (fun _ _ => 0) (tinyImage 24)).2.asked := by
  obtain ⟨hv, ha⟩ := tinyImage_accepted (.inl rfl)
  exact (addresses_right_iff _ (tinyImage 24) hv ha (by decide)).2
    ⟨by decide +kernel, by decide +kernel, by decide +kernel, by decide +kernel, by decide +kernel⟩

/-- A volume of 80 sectors of 2 KiB, which are the blocks. -/
def longSectors : Options where
  fssize := 80
  sectorsize := 2048
  bsize := 2048
  fsize := 0
  inodesize := 128
  num_inodes := 0
  density := 0
  minfree := 5
  oflag := true

/-- **With sectors of 2 KiB** the run comes to its end, and the superblock is at the start of the volume
instead of at byte 1024. -/
theorem longSectors_wrong :
    (longSectors.Valid ∧ Accepts (main longSectors).value ∧ 512 ≤ longSectors.sectorsize) ∧
      (image (fun _ _ => 0) longSectors).1 = some () ∧
        (∃ r ∈ (image (fun _ _ => 0) longSectors).2.asked, r.what = .super 0 ∧ r.bno = 0) ∧
          ¬AddressesRight (main longSectors).value (newfs longSectors).value.1
            (image (fun _ _ => 0) longSectors).2.asked := by
  have hv : longSectors.Valid := ⟨by decide, .inl rfl, by decide, by decide, by decide⟩
  have ha : Accepts (main longSectors).value :=
    ⟨by decide, by decide, by decide, by decide, by decide, by decide, by decide, by decide +kernel⟩
  refine ⟨⟨hv, ha, by decide⟩, by decide +kernel, by decide +kernel, fun hr => ?_⟩
  have hl := mke2fs_laid (ha.sizes hv.inodesize hv.minfree)
  rw [← newfs_value] at hl
  have hle := (hr.reached hl (ha.sizes hv.inodesize hv.minfree) ha.sectors).sectorsize
  exact absurd hle (by decide)

end Ext2fs.Newfs
