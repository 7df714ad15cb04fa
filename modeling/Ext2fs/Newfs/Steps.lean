import Ext2fs.Newfs.Layout

/-!
# What the steps of the layout yield

Each step of `mke2fs` is exact under a condition, and then has the result that the same formulas have
for natural numbers.

* `Params.groups₀`, `Params.drops`, `Params.groups` — the groups of the device, and those that stay;
* `firstGroups_yields`, `dropLast_yields`, `wholeTables_yields`, `reserve_yields` — the steps;
* `descriptor_yields`, `descriptors_yields` — the descriptors.
-/

namespace Ext2fs.Newfs

open Tracked Fsck

/-! ### Rounding up -/

theorem howmany_le_iff {x y n : ℕ} (hy : 0 < y) : howmany x y ≤ n ↔ x ≤ n * y := by
  unfold howmany
  have hdiv := Nat.div_add_mod x y
  have hmod := Nat.mod_lt x hy
  split
  · next h0 =>
    rw [Nat.div_le_iff_le_mul hy]
    constructor
    · intro h
      have hle : x / y ≤ n := by
        by_contra hc
        have hbig : (n + 1) * y ≤ x / y * y := Nat.mul_le_mul_right y (by omega)
        rw [Nat.succ_mul] at hbig
        have hcomm : x / y * y = y * (x / y) := Nat.mul_comm ..
        omega
      have hmul : x / y * y ≤ n * y := Nat.mul_le_mul_right y hle
      have hcomm : x / y * y = y * (x / y) := Nat.mul_comm ..
      omega
    · omega
  · next h0 =>
    constructor
    · intro h
      have hmul : (x / y + 1) * y ≤ n * y := Nat.mul_le_mul_right y h
      rw [Nat.succ_mul] at hmul
      have hcomm : x / y * y = y * (x / y) := Nat.mul_comm ..
      omega
    · intro h
      by_contra hc
      have hmul : n * y ≤ x / y * y := Nat.mul_le_mul_right y (by omega)
      have hcomm : x / y * y = y * (x / y) := Nat.mul_comm ..
      omega

theorem howmany_pos {x y : ℕ} (hy : 0 < y) (hx : 0 < x) : 0 < howmany x y := by
  by_contra h
  have hle := (howmany_le_iff (x := x) (n := 0) hy).1 (by omega)
  omega

theorem howmany_mono {x x' y : ℕ} (hy : 0 < y) (h : x ≤ x') : howmany x y ≤ howmany x' y :=
  (howmany_le_iff hy).2 (h.trans ((howmany_le_iff hy).1 (Nat.le_refl _)))

theorem howmany'_yields {x y : ℕ} : Yields (howmany' x y) (y ≠ 0) (howmany x y) :=
  ⟨decide_eq_true_iff, fun _ => rfl⟩

/-! ### The sizes of an accepted call -/

section

variable {p : Params}

/-- The sizes that `main` and `mke2fs` let pass. -/
structure Sizes (p : Params) : Prop where
  bsize : p.bsize = 1024 ∨ p.bsize = 2048 ∨ p.bsize = 4096
  inodesize : p.inodesize = 128 ∨ p.inodesize = 256
  minfree : p.minfree ≤ 99
  blocks : p.first_dblock + 7 ≤ p.fssize / 2 ^ p.fsbtodb

/-- `powerof2` says what its name says. -/
theorem powerof2_log2 {b : ℕ} (h0 : b ≠ 0) (hb : powerof2 b) : b = 2 ^ b.log2 := by
  have hle : 2 ^ b.log2 ≤ b := Nat.log2_self_le h0
  have hlt : b < 2 ^ (b.log2 + 1) := Nat.lt_log2_self
  by_contra hne
  -- otherwise `b` and `b - 1` have the leading bit in common
  have hbit : b.testBit b.log2 = true := Nat.testBit_of_two_pow_le_and_two_pow_add_one_gt hle hlt
  have hbit' : (b - 1).testBit b.log2 = true :=
    Nat.testBit_of_two_pow_le_and_two_pow_add_one_gt (by omega) (by omega)
  have hand : (b &&& (b - 1)).testBit b.log2 = true := by
    rw [Nat.testBit_and, hbit, hbit']
    rfl
  rw [show b &&& (b - 1) = 0 from hb, Nat.zero_testBit] at hand
  exact Bool.false_ne_true hand

theorem powerof2_cases {b : ℕ} (hb : powerof2 b) (h1 : 1024 ≤ b) (h2 : b ≤ 4096) :
    b = 1024 ∨ b = 2048 ∨ b = 4096 := by
  have hpow := powerof2_log2 (by omega) hb
  have hlo : 10 ≤ b.log2 := by
    by_contra hc
    have hle : 2 ^ b.log2 ≤ 2 ^ 9 := Nat.pow_le_pow_right (by decide) (by omega)
    omega
  have hhi : b.log2 ≤ 12 := by
    by_contra hc
    have hle : 2 ^ 13 ≤ 2 ^ b.log2 := Nat.pow_le_pow_right (by decide) (by omega)
    omega
  have hk : b.log2 = 10 ∨ b.log2 = 11 ∨ b.log2 = 12 := by omega
  rcases hk with hk | hk | hk <;> rw [hk] at hpow <;> omega

theorem Accepts.sizes (h : Accepts p) (hi : p.inodesize = 128 ∨ p.inodesize = 256)
    (hm : p.minfree ≤ 99) : Sizes p where
  bsize := powerof2_cases h.bsize_pow h.bsize_ge h.bsize_le
  inodesize := hi
  minfree := hm
  blocks := by
    have hmin := h.fssize
    unfold Params.minfssize at hmin
    exact (Nat.le_div_iff_mul_le (Nat.two_pow_pos _)).2 hmin

theorem first_le : p.first_dblock ≤ 1 := by
  unfold Params.first_dblock
  split <;> omega

namespace Sizes

variable (h : Sizes p)

include h

theorem bsize_pos : 0 < p.bsize := by
  rcases h.bsize with hb | hb | hb <;> omega

theorem bsize_le : p.bsize ≤ 4096 := by
  rcases h.bsize with hb | hb | hb <;> omega

theorem bpg_pos : 0 < p.bsize * NBBY := Nat.mul_pos h.bsize_pos (by decide)

theorem bpg_le : p.bsize * NBBY ≤ 32768 := by
  have hle := h.bsize_le
  unfold NBBY
  omega

theorem ipb : p.ipb = 4 ∨ p.ipb = 8 ∨ p.ipb = 16 ∨ p.ipb = 32 := by
  unfold Params.ipb
  rcases h.bsize with hb | hb | hb <;> rcases h.inodesize with hi | hi <;> rw [hb, hi] <;> decide

end Sizes

/-! ### The groups -/

namespace Params

variable (p)

/-- The blocks of the device. -/
def blocks : ℕ := p.fssize / 2 ^ p.fsbtodb

/-- The groups that hold them. -/
def groups₀ : ℕ := howmany (p.blocks - p.first_dblock) (p.bsize * NBBY)

/-- The number of inodes that is asked for, in its range. -/
def inodes : ℕ := inodesFor p.num_inodes (65535 * p.groups₀)

/-- The blocks of the last group. -/
def rest : ℕ := p.blocks - p.first_dblock - p.bsize * NBBY * (p.groups₀ - 1)

/-- The blocks that it has to have, with its share of the inodes. -/
def least : ℕ :=
  1 + 1 + 1 + howmany (p.inodesize * (p.inodes / p.groups₀)) p.bsize +
    if p.hasSb (p.groups₀ - 1) then 1 + howmany (EXT2_MIN_GD_SIZE * p.groups₀) p.bsize else 0

/-- The last group is dropped. -/
def drops : Prop := p.rest < p.least

instance : Decidable p.drops := inferInstanceAs (Decidable (_ < _))

/-- The groups that stay. -/
def groups : ℕ := if p.drops then p.groups₀ - 1 else p.groups₀

/-- The blocks that stay. -/
def kept : ℕ := if p.drops then p.blocks - p.rest else p.blocks

/-- The blocks of the last group that stays. -/
def lastcg : ℕ := if p.drops then p.bsize * NBBY else p.rest

/-- The groups before one is dropped. -/
def first : Groups where
  bcount := p.blocks
  ncg := p.groups₀
  blocks_gd := howmany (EXT2_MIN_GD_SIZE * p.groups₀) p.bsize
  num_inodes := p.inodes
  inodes_per_cg := p.inodes / p.groups₀
  blocks_lastcg := p.rest

/-- The groups that stay. -/
def final : Groups where
  bcount := p.kept
  ncg := p.groups
  blocks_gd := howmany (EXT2_MIN_GD_SIZE * p.groups) p.bsize
  num_inodes := p.inodes
  inodes_per_cg := p.inodes / p.groups
  blocks_lastcg := p.lastcg

end Params

section

variable (h : Sizes p)

include h

theorem Sizes.groups₀_pos : 0 < p.groups₀ := by
  have hblocks := h.blocks
  refine howmany_pos h.bpg_pos ?_
  unfold Params.blocks
  omega

/-- The last group is not empty, and not larger than the others. -/
theorem Sizes.rest_spec : 0 < p.rest ∧ p.rest ≤ p.bsize * NBBY ∧
    p.rest + p.bsize * NBBY * (p.groups₀ - 1) = p.blocks - p.first_dblock := by
  have hpos := h.groups₀_pos
  have hle := (howmany_le_iff h.bpg_pos).1 (Nat.le_refl p.groups₀)
  have hlt : ¬p.blocks - p.first_dblock ≤ (p.groups₀ - 1) * (p.bsize * NBBY) := fun hc => by
    have := (howmany_le_iff h.bpg_pos).2 hc
    unfold Params.groups₀ at hpos this
    omega
  obtain ⟨n, hn⟩ : ∃ n, p.groups₀ = n + 1 := ⟨p.groups₀ - 1, by omega⟩
  rw [hn, Nat.succ_mul] at hle
  unfold Params.rest
  rw [hn, Nat.add_sub_cancel] at hlt ⊢
  rw [Nat.mul_comm n] at hlt hle
  omega

omit h in
theorem inodes_le : p.inodes / p.groups₀ ≤ 65535 := by
  have hle : p.inodes ≤ 65535 * p.groups₀ := by
    unfold Params.inodes inodesFor
    dsimp only
    split_ifs <;> omega
  exact Nat.div_le_of_le_mul (hle.trans_eq (Nat.mul_comm ..))

theorem minblocks_yields (hg : p.groups₀ ≤ 65537) :
    Yields (minblocks p p.groups₀ (howmany (EXT2_MIN_GD_SIZE * p.groups₀) p.bsize)
      (p.inodes / p.groups₀)) True p.least := by
  have hpos := h.groups₀_pos
  have hinodes := inodes_le (p := p)
  have hbytes : p.inodesize * (p.inodes / p.groups₀) ≤ 256 * 65535 :=
    Nat.mul_le_mul (by rcases h.inodesize with hi | hi <;> omega) hinodes
  have hB := h.bsize
  have hit : howmany (p.inodesize * (p.inodes / p.groups₀)) p.bsize ≤ 16384 := by
    refine (howmany_le_iff h.bsize_pos).2 ?_
    rcases hB with hb | hb | hb <;> omega
  have hgd : howmany (EXT2_MIN_GD_SIZE * p.groups₀) p.bsize ≤ 2049 := by
    refine (howmany_le_iff h.bsize_pos).2 ?_
    unfold EXT2_MIN_GD_SIZE
    rcases hB with hb | hb | hb <;> omega
  unfold minblocks
  refine Yields.step Yields.mul (fun _ => ?_) fun _ => ?_
  · omega
  refine Yields.step Yields.add (fun _ => ?_) fun _ => ?_
  · omega
  refine Yields.step (Yields.sub (by omega)) (fun _ => hpos) fun _ => ?_
  unfold Params.least
  by_cases hsb : p.hasSb (p.groups₀ - 1)
  · rw [if_pos hsb, if_pos hsb]
    exact Yields.add.last (iff_of_true trivial (by omega)) fun _ => rfl
  · rw [if_neg hsb, if_neg hsb]
    exact .done trivial rfl

theorem firstGroups_yields :
    Yields (firstGroups p) (p.groups₀ ≤ 65537) (p.first, p.least) := by
  have hpos := h.groups₀_pos
  have hbpg := h.bpg_le
  have hbpg0 := h.bpg_pos
  have hfirst : p.first_dblock + 7 ≤ p.blocks := h.blocks
  obtain ⟨hrest, hrest', hsum⟩ := h.rest_spec
  unfold firstGroups
  refine Yields.step Yields.conv (fun hg => ?_) fun hblocks => ?_
  · have hle := (howmany_le_iff hbpg0).1 hg
    have hmul : 65537 * (p.bsize * NBBY) ≤ 65537 * 32768 := Nat.mul_le_mul_left _ hbpg
    have hone := first_le (p := p)
    unfold Params.blocks at hle hfirst
    omega
  refine Yields.step Yields.mul (fun _ => by omega) fun _ => ?_
  refine Yields.step (Yields.sub hblocks) (fun _ => by unfold Params.blocks at hfirst; omega)
    fun _ => ?_
  refine Yields.step howmany'_yields (fun _ => hbpg0.ne') fun _ => ?_
  refine Yields.step Yields.mul (fun hg => ?_) fun hmost => ?_
  · show 65535 * p.groups₀ < 2 ^ 32
    omega
  have hg : p.groups₀ ≤ 65537 := by
    have hmost' : 65535 * p.groups₀ < 2 ^ 32 := hmost
    omega
  refine Yields.step Yields.div (fun _ => hpos.ne') fun _ => ?_
  refine Yields.step (minblocks_yields h hg) (fun _ => trivial) fun _ => ?_
  refine Yields.step (Yields.sub ?_) (fun _ => hpos) fun _ => ?_
  · show p.groups₀ < 2 ^ 32
    omega
  refine Yields.step Yields.mul (fun _ => ?_) fun _ => ?_
  · show p.bsize * NBBY * (p.groups₀ - 1) < 2 ^ 32
    have hblocks' : p.blocks < 2 ^ 32 := hblocks
    omega
  refine Yields.step (Yields.sub ?_) (fun _ => ?_) fun _ => ?_
  · show p.blocks - p.first_dblock < 2 ^ 32
    have hblocks' : p.blocks < 2 ^ 32 := hblocks
    omega
  · show p.bsize * NBBY * (p.groups₀ - 1) ≤ p.blocks - p.first_dblock
    omega
  exact .done hg rfl

theorem dropLast_yields (hg : p.groups₀ ≤ 65537) :
    Yields (dropLast p p.first p.least) (0 < p.groups) p.final := by
  have hpos := h.groups₀_pos
  have hfirst : p.first_dblock + 7 ≤ p.blocks := h.blocks
  obtain ⟨hrest, hrest', hsum⟩ := h.rest_spec
  have hblocks : p.blocks < 2 ^ 32 := by
    have hmul : p.bsize * NBBY * (p.groups₀ - 1) ≤ 32768 * 65536 :=
      Nat.mul_le_mul h.bpg_le (by omega)
    have hbpg := h.bpg_le
    have hone := first_le (p := p)
    omega
  unfold dropLast
  by_cases hd : p.drops
  · have hif : p.first.blocks_lastcg < p.least := hd
    have hgroups : p.groups = p.groups₀ - 1 := if_pos hd
    rw [if_pos hif]
    refine Yields.step (Yields.sub hblocks) (fun _ => ?_) fun _ => ?_
    · show p.rest ≤ p.blocks
      omega
    refine Yields.step (Yields.sub ?_) (fun _ => hpos) fun _ => ?_
    · show p.groups₀ < 2 ^ 32
      omega
    refine Yields.step Yields.div (fun hc => ?_) fun hne => ?_
    · show p.groups₀ - 1 ≠ 0
      omega
    · have hne' : p.groups₀ - 1 ≠ 0 := hne
      refine .done (by omega) ?_
      unfold Params.final Params.kept Params.lastcg
      rw [hgroups, if_pos hd, if_pos hd]
      rfl
  · have hif : ¬p.first.blocks_lastcg < p.least := hd
    have hgroups : p.groups = p.groups₀ := if_neg hd
    rw [if_neg hif]
    refine .done (by omega) ?_
    unfold Params.final Params.kept Params.lastcg
    rw [hgroups, if_neg hd, if_neg hd]
    rfl

end

/-! ### The superblock -/

/-- The next multiple. -/
def roundUp (x y : ℕ) : ℕ := if x % y = 0 then x else x + (y - x % y)

theorem roundup_yields {x y : ℕ} (hx : x < 2 ^ 32) :
    Yields (roundup x y) (roundUp x y < 2 ^ 32) (roundUp x y) := by
  unfold roundup roundUp
  split
  · exact (Yields.pure x).congr (iff_of_true trivial hx)
  · exact Yields.add

namespace Params

variable (p)

/-- The inodes of a group. -/
def ipg : ℕ := roundUp (p.inodes / p.groups) p.ipb

/-- The superblock before the reserved descriptors. -/
def sb : Sb where
  bcount := p.kept
  icount := p.ipg * p.groups
  rbcount := p.kept * p.minfree / 100
  first_dblock := p.first_dblock
  bpg := p.bsize * NBBY
  ipg := p.ipg
  gcount := p.groups
  gdbcount := howmany (EXT2_MIN_GD_SIZE * p.groups) p.bsize
  itpg := p.ipg / p.ipb
  resize := p.oflag
  reserved_ngdb := 0
  blocks_lastcg := p.lastcg

end Params

theorem wholeTables_yields (h : Sizes p) (hg : p.groups₀ ≤ 65537) (hpos : 0 < p.groups) :
    Yields (wholeTables p p.final) (p.ipg * p.groups < 2 ^ 32 ∧ p.kept * p.minfree < 2 ^ 32)
      p.sb := by
  have hipb : p.ipb ≠ 0 := by
    rcases h.ipb with hi | hi | hi | hi <;> omega
  have hinodes : p.inodes < 2 ^ 32 := by
    unfold Params.inodes inodesFor
    dsimp only
    split_ifs <;> omega
  have hper : p.inodes / p.groups < 2 ^ 32 := (Nat.div_le_self ..).trans_lt hinodes
  unfold wholeTables
  refine Yields.step (roundup_yields hper) (fun hc => ?_) fun _ => ?_
  · exact (Nat.le_mul_of_pos_right p.ipg hpos).trans_lt hc.1
  refine Yields.step Yields.mul (fun hc => hc.1) fun hicount => ?_
  refine Yields.step Yields.div (fun _ => hipb) fun _ => ?_
  refine Yields.step Yields.mul (fun hc => hc.2) fun hpercent => ?_
  exact .done ⟨hicount, hpercent⟩ rfl

/-- The blocks of a group that hold no data. -/
def overhead (p : Params) (sb : Sb) (c : ℕ) : ℕ :=
  1 + 1 + sb.itpg + if p.hasSb c then 1 + sb.gdbcount + if sb.resize then sb.reserved_ngdb else 0 else 0

theorem cgoverhead_yields {sb : Sb} {c : ℕ} :
    Yields (cgoverhead p sb c) (overhead p sb c < 2 ^ 32) (overhead p sb c) := by
  unfold cgoverhead overhead
  by_cases hsb : p.hasSb c
  · rw [if_pos hsb]
    refine Yields.step Yields.add (fun hc => by omega) fun _ => ?_
    rw [if_pos hsb]
    refine Yields.step Yields.add (fun hc => by omega) fun _ => ?_
    by_cases hres : sb.resize
    · rw [if_pos hres, if_pos hres]
      have hsum : 1 + 1 + sb.itpg + (1 + sb.gdbcount) + sb.reserved_ngdb =
          1 + 1 + sb.itpg + (1 + sb.gdbcount + sb.reserved_ngdb) := Nat.add_assoc ..
      exact Yields.add.last (by rw [hsum]) fun _ => hsum
    · rw [if_neg hres, if_neg hres]
      exact .done (by omega) rfl
  · rw [if_neg hsb]
    refine Yields.step Yields.add (fun hc => by omega) fun _ => ?_
    rw [if_neg hsb]
    exact .done (by omega) rfl

/-- The descriptors that would be wanted for a volume 1024 times the size. -/
def Params.target (p : Params) : ℕ :=
  howmany (EXT2_MIN_GD_SIZE *
    howmany (min ((p.kept - p.first_dblock) * 1024) (2 ^ 32 - 1)) (p.bsize * NBBY)) p.bsize

/-- Those that are reserved. -/
def Params.reserved (p : Params) : ℕ :=
  min (min p.target p.nindir - p.sb.gdbcount) (p.lastcg - overhead p p.sb (p.groups - 1))

/-- The superblock with the reserved descriptors. -/
def Params.finalSb (p : Params) : Sb :=
  if p.oflag then { p.sb with resize := decide (p.reserved ≠ 0), reserved_ngdb := p.reserved }
  else p.sb

/-- The blocks that stay fill the groups that stay. -/
theorem Sizes.kept_spec (h : Sizes p) (hpos : 0 < p.groups) :
    p.kept = p.first_dblock + p.bsize * NBBY * (p.groups - 1) + p.lastcg ∧ 0 < p.lastcg ∧
      p.lastcg ≤ p.bsize * NBBY := by
  have hfirst : p.first_dblock + 7 ≤ p.blocks := h.blocks
  obtain ⟨hrest, hrest', hsum⟩ := h.rest_spec
  unfold Params.kept Params.lastcg
  by_cases hd : p.drops
  · have hgroups : p.groups = p.groups₀ - 1 := if_pos hd
    rw [if_pos hd, if_pos hd]
    obtain ⟨n, hn⟩ : ∃ n, p.groups = n + 1 := ⟨p.groups - 1, by omega⟩
    rw [← hgroups, hn, Nat.mul_succ] at hsum
    rw [hn, Nat.add_sub_cancel]
    have hB := h.bpg_pos
    omega
  · have hgroups : p.groups = p.groups₀ := if_neg hd
    rw [if_neg hd, if_neg hd, hgroups]
    omega

theorem Sizes.groups_le (h : Sizes p) (hpos : 0 < p.groups) :
    p.groups ≤ howmany (p.kept - p.first_dblock) (p.bsize * NBBY) := by
  obtain ⟨hkept, hlast, -⟩ := h.kept_spec hpos
  by_contra hc
  have hle := (howmany_le_iff h.bpg_pos).1 (Nat.le_sub_one_of_lt (Nat.lt_of_not_le hc))
  rw [hkept, Nat.mul_comm (p.groups - 1)] at hle
  omega

theorem reserve_yields (h : Sizes p) (hg : p.groups₀ ≤ 65537) (hpos : 0 < p.groups) :
    Yields (reserve p p.sb)
      (p.oflag → p.sb.gdbcount ≤ p.nindir ∧ overhead p p.sb (p.groups - 1) ≤ p.lastcg)
      p.finalSb := by
  unfold reserve Params.finalSb
  by_cases hO : p.oflag = true
  swap
  · rw [if_neg hO, if_neg hO]
    exact .done (fun hc => absurd hc hO) rfl
  have hB := h.bsize_pos
  have hbpg := h.bpg_pos
  obtain ⟨hkept, hlast, hlast'⟩ := h.kept_spec hpos
  have hle := h.groups_le hpos
  have hlast32 : p.lastcg ≤ 32768 := hlast'.trans h.bpg_le
  have hgle : p.groups ≤ p.groups₀ := by
    unfold Params.groups
    split <;> omega
  have hkept32 : p.kept < 2 ^ 32 := by
    have hmul : p.bsize * NBBY * (p.groups - 1) ≤ 32768 * 65536 := Nat.mul_le_mul h.bpg_le (by omega)
    have hone := first_le (p := p)
    omega
  have hncg : ∀ x, x < 2 ^ 32 → howmany x (p.bsize * NBBY) < 2 ^ 32 := fun x hx =>
    ((howmany_le_iff hbpg).2 (Nat.le_mul_of_pos_right x hbpg)).trans_lt hx
  have hngd : ∀ x, x < 2 ^ 32 → howmany (EXT2_MIN_GD_SIZE * x) p.bsize < 2 ^ 32 := fun x hx => by
    refine ((howmany_le_iff hB).2 ?_).trans_lt hx
    rw [Nat.mul_comm]
    refine Nat.mul_le_mul_left x ?_
    unfold EXT2_MIN_GD_SIZE
    rcases h.bsize with hb | hb | hb <;> omega
  have htarget : p.sb.gdbcount ≤ p.target := by
    refine howmany_mono hB (Nat.mul_le_mul_left _ (hle.trans (howmany_mono hbpg ?_)))
    omega
  rw [if_pos hO, if_pos hO]
  refine Yields.step (Yields.sub hkept32) (fun _ => ?_) fun _ => ?_
  · show p.first_dblock ≤ p.kept
    omega
  refine Yields.step Yields.conv (fun _ => hncg _ (by omega)) fun hn => ?_
  refine Yields.step Yields.conv (fun _ => hngd _ hn) fun ht => ?_
  refine Yields.step (Yields.sub ((Nat.min_le_left ..).trans_lt ht)) (fun hc => ?_) fun hgd => ?_
  · exact Nat.le_min.2 ⟨htarget, (hc hO).1⟩
  refine Yields.step (Yields.sub ?_) (fun _ => hpos) fun _ => ?_
  · show p.groups < 2 ^ 32
    omega
  refine Yields.step cgoverhead_yields (fun hc => ?_) fun _ => ?_
  · exact (hc hO).2.trans_lt (by omega)
  refine Yields.step (Yields.sub ?_) (fun hc => (hc hO).2) fun hspace => ?_
  · show p.lastcg < 2 ^ 32
    omega
  have hmin : (if p.lastcg - overhead p p.sb (p.groups - 1) ≤ min p.target p.nindir - p.sb.gdbcount then
      p.lastcg - overhead p p.sb (p.groups - 1) else min p.target p.nindir - p.sb.gdbcount) =
        p.reserved := by
    unfold Params.reserved
    split <;> omega
  show Yields (conv 16 (if p.lastcg - overhead p p.sb (p.groups - 1) ≤
    min p.target p.nindir - p.sb.gdbcount then p.lastcg - overhead p p.sb (p.groups - 1) else
      min p.target p.nindir - p.sb.gdbcount) >>= _) _ _
  rw [hmin]
  refine Yields.step Yields.conv (fun _ => ?_) fun _ => ?_
  · have hres : p.reserved ≤ p.nindir := (Nat.min_le_left ..).trans ((Nat.sub_le ..).trans
      (Nat.min_le_right ..))
    have hbs := h.bsize_le
    unfold Params.nindir at hres
    omega
  · refine .done (fun _ => ⟨(Nat.le_min.1 hgd).2, hspace⟩) ?_
    exact congrArg (fun r => ({ p.sb with
      resize := decide (r ≠ 0), reserved_ngdb := p.reserved } : Sb)) hmin

end

/-! ### The descriptors -/

section

variable {p : Params} {sb : Sb}

/-- The first block of a group. -/
def Sb.base (sb : Sb) (c : ℕ) : ℕ := sb.first_dblock + sb.bpg * c

/-- The number of its blocks. -/
def Sb.size (sb : Sb) (c : ℕ) : ℕ := if c = sb.gcount - 1 then sb.blocks_lastcg else sb.bpg

/-- The block of its bitmap. -/
def bitmapAt (p : Params) (sb : Sb) (c : ℕ) : ℕ :=
  sb.base c + if p.hasSb c then 1 + sb.gdbcount + if sb.resize then sb.reserved_ngdb else 0 else 0

/-- Its descriptor. -/
def gdOf (p : Params) (sb : Sb) (c : ℕ) : Gd where
  b_bitmap := bitmapAt p sb c
  i_bitmap := bitmapAt p sb c + 1
  i_tables := bitmapAt p sb c + 1 + 1
  nbfree := sb.size c - overhead p sb c
  nifree := if c = 0 then sb.ipg - (FIRSTINO - 1) else sb.ipg

/-- The descriptors of the first `n` groups. -/
def totalsOf (p : Params) (sb : Sb) (n : ℕ) : Totals where
  gd := (List.range n).map (gdOf p sb)
  fbcount := ((List.range n).map fun c => (gdOf p sb c).nbfree).sum
  ficount := ((List.range n).map fun c => (gdOf p sb c).nifree).sum

/-- What makes a descriptor exact. -/
structure DescriptorFits (p : Params) (sb : Sb) (c : ℕ) : Prop where
  address : bitmapAt p sb c + 1 + 1 < 2 ^ 32
  overhead_le : overhead p sb c ≤ sb.size c
  nbfree : sb.size c - overhead p sb c < 2 ^ 16
  ipg : sb.ipg < 2 ^ 16
  reserved : c = 0 → FIRSTINO - 1 ≤ sb.ipg

theorem cgbase_yields {c : ℕ} : Yields (cgbase sb c) (sb.base c < 2 ^ 32) (sb.base c) := by
  unfold cgbase
  refine Yields.step Yields.mul (fun hc => ?_) fun _ => ?_
  · unfold Sb.base at hc
    omega
  · exact Yields.add.last Iff.rfl fun _ => rfl

theorem bitmapBlock_yields {c : ℕ} :
    Yields (bitmapBlock p sb c) (bitmapAt p sb c < 2 ^ 32) (bitmapAt p sb c) := by
  have hbase : bitmapAt p sb c < 2 ^ 32 → sb.base c < 2 ^ 32 := fun hc => by
    unfold bitmapAt at hc
    omega
  unfold bitmapBlock
  refine Yields.step cgbase_yields hbase fun _ => ?_
  unfold bitmapAt
  by_cases hsb : p.hasSb c
  · rw [if_pos hsb, if_pos hsb]
    refine Yields.step Yields.add (fun hc => by omega) fun _ => ?_
    by_cases hres : sb.resize
    · rw [if_pos hres, if_pos hres]
      have hsum : sb.base c + (1 + sb.gdbcount) + sb.reserved_ngdb =
          sb.base c + (1 + sb.gdbcount + sb.reserved_ngdb) := Nat.add_assoc ..
      exact Yields.add.last (by rw [hsum]) fun _ => hsum
    · rw [if_neg hres, if_neg hres]
      exact .done (by omega) rfl
  · rw [if_neg hsb, if_neg hsb]
    exact .done (by omega) rfl

theorem descriptor_yields {c : ℕ} (hc : c < sb.gcount) (hn : sb.gcount < 2 ^ 32)
    (hsize : sb.size c < 2 ^ 32) :
    Yields (descriptor p sb c) (DescriptorFits p sb c) (gdOf p sb c) := by
  unfold descriptor
  refine Yields.step bitmapBlock_yields (fun h => ?_) fun _ => ?_
  · have := h.address
    omega
  refine Yields.step Yields.add (fun h => ?_) fun _ => ?_
  · have := h.address
    omega
  refine Yields.step Yields.add (fun h => h.address) fun haddr => ?_
  refine Yields.step cgoverhead_yields (fun h => h.overhead_le.trans_lt hsize) fun _ => ?_
  refine Yields.step (Yields.sub hn) (fun _ => by omega) fun _ => ?_
  refine Yields.step (Yields.sub hsize) (fun h => h.overhead_le) fun hover => ?_
  refine Yields.step Yields.conv (fun h => h.nbfree) fun hfree => ?_
  refine Yields.step Yields.conv (fun h => h.ipg) fun hipg => ?_
  by_cases h0 : c = 0
  · rw [if_pos h0]
    refine Yields.step (Yields.sub hipg) (fun h => h.reserved h0) fun hres => ?_
    refine .done ⟨haddr, hover, hfree, hipg, fun _ => hres⟩ ?_
    unfold gdOf
    rw [if_pos h0]
    rfl
  · rw [if_neg h0]
    refine Yields.step (Yields.pure _) (fun _ => trivial) fun _ => ?_
    refine .done ⟨haddr, hover, hfree, hipg, fun h => absurd h h0⟩ ?_
    unfold gdOf
    rw [if_neg h0]
    rfl

/-- One round of the loop. -/
theorem addDescriptor_yields {c : ℕ} (hc : c < sb.gcount) (hn : sb.gcount < 2 ^ 32)
    (hsize : sb.size c < 2 ^ 32) :
    Yields (addDescriptor p sb (totalsOf p sb c) c)
      (DescriptorFits p sb c ∧ (totalsOf p sb (c + 1)).fbcount < 2 ^ 32 ∧
        (totalsOf p sb (c + 1)).ficount < 2 ^ 32) (totalsOf p sb (c + 1)) := by
  have hfb : (totalsOf p sb (c + 1)).fbcount =
      (totalsOf p sb c).fbcount + (gdOf p sb c).nbfree := by
    unfold totalsOf
    simp [List.range_succ]
  have hfi : (totalsOf p sb (c + 1)).ficount =
      (totalsOf p sb c).ficount + (gdOf p sb c).nifree := by
    unfold totalsOf
    simp [List.range_succ]
  have hgd : (totalsOf p sb (c + 1)).gd = (totalsOf p sb c).gd ++ [gdOf p sb c] := by
    unfold totalsOf
    simp [List.range_succ]
  unfold addDescriptor
  refine Yields.step (descriptor_yields hc hn hsize) (fun h => h.1) fun hfits => ?_
  refine Yields.step Yields.add (fun h => hfb ▸ h.2.1) fun hfb' => ?_
  refine Yields.step Yields.add (fun h => hfi ▸ h.2.2) fun hfi' => ?_
  refine .done ⟨hfits, hfb ▸ hfb', hfi ▸ hfi'⟩ ?_
  rw [← hfb, ← hfi, ← hgd]

/-- **The loop over the groups**, group by group. -/
theorem descriptors_yields (hn : sb.gcount < 2 ^ 32) (hsize : ∀ c, sb.size c < 2 ^ 32) :
    Yields (descriptors p sb)
      (∀ c < sb.gcount, DescriptorFits p sb c ∧ (totalsOf p sb (c + 1)).fbcount < 2 ^ 32 ∧
        (totalsOf p sb (c + 1)).ficount < 2 ^ 32) (totalsOf p sb sb.gcount) := by
  have hloop := Yields.fold_range (f := addDescriptor p sb) (g := totalsOf p sb)
    fun c hc => addDescriptor_yields hc hn (hsize c)
  exact hloop

end

end Ext2fs.Newfs
