import Ext2fs.Superblock

/-!
# The geometry of an accepted superblock

What `ext2_check_sb_compat` and `compute_sb_data` let through is used as divisors, shift counts and
group numbers all over the driver.  `Sound` lists what those uses need of the derived values,
`Plausible` the relations among the superblock's fields that the two functions leave untested.

* `sound_iff` — the geometry is sound exactly when the fields are plausible;
* `zeroIpg_unsound` — a superblock the driver mounts although its inode numbers have no group.
-/

namespace Ext2fs

variable {es : Superblock} {fs : Geometry}

/-! ### Groups of blocks and inodes -/

namespace Geometry

variable (fs : Geometry)

/-- `dtog`: the group of a block, in 64-bit arithmetic. -/
def dtog (es : Superblock) (d : ℤ) : ℤ := (d - es.e2fs_first_dblock.toNat).tdiv fs.bpg

/-- `dtogd`: the number of a block in its group. -/
def dtogd (es : Superblock) (d : ℤ) : ℤ := (d - es.e2fs_first_dblock.toNat).tmod fs.bpg

/-- `ino_to_cg`: the group of an inode. -/
def inoToCg (x : ℕ) : ℕ := (x - 1) / fs.ipg

end Geometry

/-- The block number that `ext2_alloccg` returns for a bit of a group's map.  The group's part is
computed in `uint32_t`, the bit is added in 64 bits. -/
def Superblock.alloccgBlock (es : Superblock) (cg : ℕ) (bno : ℤ) : ℤ :=
  (u32 (cg * es.e2fs_fpg.toNat + es.e2fs_first_dblock.toNat : ℕ) : ℤ) + bno

/-! ### What the driver needs, and what it does not test -/

/-- What the driver relies on in the geometry of a mounted volume. -/
structure Sound (es : Superblock) (fs : Geometry) : Prop where
  divisors : fs.bpg ≠ 0 ∧ fs.ipg ≠ 0 ∧ fs.ipb ≠ 0 ∧ fs.gcount ≠ 0 ∧ fs.fpb ≠ 0 ∧ es.e2fs_ipg ≠ 0
  shifts : fs.bshift < 32 ∧ fs.fsbtodb < 32 ∧ es.e2fs_log_bsize.toNat < 32 ∧
    es.e2fs_log_fsize.toNat < 32
  gcount_pos : 1 ≤ fs.gcount
  gcount_eq : (fs.gcount : ℤ) =
    ⌈((es.e2fs_bcount.toNat : ℚ) - es.e2fs_first_dblock.toNat) / es.e2fs_bpg.toNat⌉
  dtog_lt : ∀ b : ℕ, es.e2fs_first_dblock.toNat ≤ b → b < es.e2fs_bcount.toNat →
    0 ≤ fs.dtog es b ∧ fs.dtog es b < fs.gcount
  inoToCg_lt : ∀ i : ℕ, 1 ≤ i → i ≤ es.e2fs_icount.toNat → fs.inoToCg i < fs.gcount
  alloccg : ∀ cg bit : ℕ, cg < fs.gcount → (bit < fs.bpg ∨ bit < fs.fpg) →
    fs.dtog es (es.alloccgBlock cg bit) = cg ∧ fs.dtogd es (es.alloccgBlock cg bit) = bit

/-- The blocks that are divided into groups. -/
def Superblock.groupedBlocks (es : Superblock) : ℕ :=
  es.e2fs_bcount.toNat - es.e2fs_first_dblock.toNat

/-- Relations among the fields that no check tests. -/
structure Plausible (es : Superblock) : Prop where
  ipg : es.e2fs_ipg ≠ 0
  logFsize : es.e2fs_log_fsize.toNat ≤ es.e2fs_log_bsize.toNat
  first : es.e2fs_first_dblock.toNat < es.e2fs_bcount.toNat
  bpg : es.groupedBlocks + es.e2fs_bpg.toNat ≤ 2 ^ 32
  icount : es.e2fs_icount.toNat ≤
    es.e2fs_ipg.toNat * ((es.groupedBlocks + es.e2fs_bpg.toNat - 1) / es.e2fs_bpg.toNat)
  fpg : es.e2fs_fpg.toNat ≤ es.e2fs_bpg.toNat
  stride : es.groupedBlocks ≤ es.e2fs_bpg.toNat ∨ es.e2fs_fpg = es.e2fs_bpg

/-! ### Fragments -/

/-- A block holds fragments exactly when the fragment size is not above the block size. -/
theorem fragsPerBlock_ne_zero_iff {lb : ℕ} (hlb : lb ≤ 2) (lf : BitVec 32) :
    (fragsPerBlock (2 ^ (10 + lb)) (fragSize lf) ≠ 0 ∧ lf.toNat < 32) ↔ lf.toNat ≤ lb := by
  have hsize (h32 : lf.toNat < 32) : fragSize lf = 2 ^ (10 + lf.toNat) % 2 ^ 32 := by
    rw [fragSize, Nat.mod_eq_of_lt h32, pow_add]
    simp only [u32]
    omega
  have hpos : 0 < 2 ^ (10 + lb) := by positivity
  constructor
  · rintro ⟨hfpb, h32⟩
    by_contra hlt
    apply hfpb
    unfold fragsPerBlock
    split
    next hne =>
      apply Nat.div_eq_of_lt
      rw [hsize h32] at hne ⊢
      by_cases h22 : lf.toNat < 22
      · rw [Nat.mod_eq_of_lt (Nat.pow_lt_pow_right (by decide) (by omega))]
        exact Nat.pow_lt_pow_right (by decide) (by omega)
      · have hdvd : 2 ^ 32 ∣ 2 ^ (10 + lf.toNat) := pow_dvd_pow 2 (by omega)
        exact absurd (Nat.mod_eq_zero_of_dvd hdvd) hne
    · rfl
  · intro hle
    have h32 : lf.toNat < 32 := by omega
    have hfs : fragSize lf = 2 ^ (10 + lf.toNat) := by
      rw [hsize h32, Nat.mod_eq_of_lt (Nat.pow_lt_pow_right (by decide) (by omega))]
    have hfs0 : 0 < 2 ^ (10 + lf.toNat) := by positivity
    refine ⟨?_, h32⟩
    unfold fragsPerBlock
    rw [hfs, if_pos hfs0.ne']
    have hle' : 2 ^ (10 + lf.toNat) ≤ 2 ^ (10 + lb) := Nat.pow_le_pow_right (by decide) (by omega)
    exact (Nat.div_pos hle' hfs0).ne'

/-! ### The group count -/

section GroupCount

variable {bcount first bpg : ℕ}

/-- The group count computed in 32 bits is positive and the rounded up quotient exactly when there
is a block to group and the sum does not wrap around. -/
theorem gcount_iff (hb : bcount < 2 ^ 32) (hf : first < 2 ^ 32) (hbpg : 0 < bpg)
    (hbpg' : bpg < 2 ^ 32) :
    (1 ≤ u32 ((bcount : ℤ) - first + bpg - 1) / bpg ∧
      ((u32 ((bcount : ℤ) - first + bpg - 1) / bpg : ℕ) : ℤ) =
        ⌈((bcount : ℚ) - first) / bpg⌉) ↔
      first < bcount ∧ bcount - first + bpg ≤ 2 ^ 32 := by
  have hceil : ⌈((bcount : ℚ) - first) / bpg⌉ = -(((first : ℤ) - bcount) / bpg) := by
    have h := Rat.ceil_intCast_div_natCast ((bcount : ℤ) - first) bpg
    push_cast at h
    rw [h, neg_sub]
  constructor
  · rintro ⟨hpos, heq⟩
    rw [hceil] at heq
    have hlt : first < bcount := by
      by_contra hle
      have h0 : 0 ≤ ((first : ℤ) - bcount) / bpg := Int.ediv_nonneg (by omega) (by omega)
      omega
    refine ⟨hlt, ?_⟩
    by_contra hwrap
    have hu : u32 ((bcount : ℤ) - first + bpg - 1) < bpg := by
      unfold u32
      omega
    rw [Nat.div_eq_of_lt hu] at hpos
    omega
  · rintro ⟨hlt, hroom⟩
    obtain ⟨n, hn⟩ : ∃ n, bcount - first = n + 1 := ⟨bcount - first - 1, by omega⟩
    have hu : u32 ((bcount : ℤ) - first + bpg - 1) = n + bpg := by
      unfold u32
      omega
    have hdiv : (n + bpg) / bpg = n / bpg + 1 := Nat.add_div_right n hbpg
    have hneg : ((first : ℤ) - bcount) / bpg = -((n / bpg + 1 : ℕ) : ℤ) := by
      have hn' : (first : ℤ) - bcount = -((n : ℤ) + 1) := by omega
      rw [hn', Int.ediv_eq_iff_of_pos (by omega)]
      have hmod := Nat.div_add_mod n bpg
      have hmodlt := Nat.mod_lt n hbpg
      obtain ⟨q, hq⟩ : ∃ q, n / bpg = q := ⟨_, rfl⟩
      rw [hq] at hmod ⊢
      have hlow : q * bpg ≤ n := by
        rw [mul_comm]
        omega
      have hhigh : n < (q + 1) * bpg := by
        rw [Nat.succ_mul, mul_comm]
        omega
      zify at hlow hhigh
      constructor
      · push_cast
        linarith
      · push_cast
        linarith
    rw [hceil, hu, hdiv, hneg]
    exact ⟨Nat.succ_pos _, (neg_neg _).symm⟩

end GroupCount

/-! ### The exact condition -/

section Accepted

variable {ronly : Bool}

/-- What the accepted fields leave of the derived values. -/
theorem Derived.bounds (hd : Derived es fs) (hcheck : ext2CheckSbCompat es ronly = 0) :
    es.e2fs_log_bsize.toNat ≤ 2 ∧ 0 < es.e2fs_bpg.toNat ∧ 0 < fs.ipb := by
  obtain ⟨hlog, hbpg⟩ := checkSbCompat_ok hcheck
  refine ⟨hlog, hbpg, ?_⟩
  have hbsize : 1024 ≤ fs.bsize := by
    rw [hd.bsize, hd.bshift, pow_add]
    exact Nat.le_mul_of_pos_right _ (by positivity)
  rw [hd.ipb]
  exact Nat.div_pos (hd.isize_le hbsize) hd.isize_pos

/-- The number of groups of a plausible superblock. -/
theorem Derived.gcount_plausible (hd : Derived es fs) (hp : Plausible es) :
    fs.gcount = (es.groupedBlocks + es.e2fs_bpg.toNat - 1) / es.e2fs_bpg.toNat := by
  have hfirst := hp.first
  have hroom := hp.bpg
  rw [hd.gcount]
  unfold Superblock.groupedBlocks at hroom ⊢
  congr 1
  unfold u32
  omega

/-- The blocks that are grouped fill all groups but the last. -/
theorem Derived.mul_le (hd : Derived es fs) (hp : Plausible es) {cg : ℕ} (hcg : cg < fs.gcount) :
    cg * es.e2fs_bpg.toNat < es.groupedBlocks := by
  rw [hd.gcount_plausible hp] at hcg
  have hpos : 0 < es.e2fs_bpg.toNat := by
    apply Nat.pos_of_ne_zero
    intro h0
    rw [h0, Nat.div_zero] at hcg
    omega
  have hle := (Nat.le_div_iff_mul_le hpos).1 (show cg + 1 ≤ _ from hcg)
  rw [Nat.succ_mul] at hle
  omega

theorem Plausible.dtog_lt (hp : Plausible es) (hd : Derived es fs) (hbpg : 0 < es.e2fs_bpg.toNat)
    {b : ℕ} (hb : es.e2fs_first_dblock.toNat ≤ b) (hb' : b < es.e2fs_bcount.toNat) :
    0 ≤ fs.dtog es b ∧ fs.dtog es b < fs.gcount := by
  obtain ⟨k, rfl⟩ := Nat.exists_eq_add_of_le hb
  have hk : k < es.groupedBlocks := by
    unfold Superblock.groupedBlocks
    omega
  have hdiv : fs.dtog es (es.e2fs_first_dblock.toNat + k : ℕ) = (k / es.e2fs_bpg.toNat : ℕ) := by
    have hsub : ((es.e2fs_first_dblock.toNat + k : ℕ) : ℤ) - es.e2fs_first_dblock.toNat = k := by
      omega
    rw [Geometry.dtog, hsub, hd.bpg, Int.tdiv_eq_ediv_of_nonneg (by omega)]
    rfl
  rw [hdiv]
  refine ⟨Int.natCast_nonneg _, ?_⟩
  rw [hd.gcount_plausible hp]
  have hlt : k / es.e2fs_bpg.toNat <
      (es.groupedBlocks + es.e2fs_bpg.toNat - 1) / es.e2fs_bpg.toNat := by
    apply (Nat.lt_iff_add_one_le).2
    rw [← Nat.add_div_right k hbpg]
    exact Nat.div_le_div_right (by omega)
  exact_mod_cast hlt

theorem Plausible.inoToCg_lt (hp : Plausible es) (hd : Derived es fs) {i : ℕ} (hi : 1 ≤ i)
    (hi' : i ≤ es.e2fs_icount.toNat) : fs.inoToCg i < fs.gcount := by
  have hle := hp.icount
  rw [← hd.gcount_plausible hp] at hle
  rw [Geometry.inoToCg, hd.ipg]
  apply Nat.div_lt_of_lt_mul
  omega

/-- The number of a group's first block. -/
theorem Plausible.alloccgBlock_eq (hp : Plausible es) (hd : Derived es fs) {cg : ℕ} (bit : ℕ)
    (hcg : cg < fs.gcount) :
    es.alloccgBlock cg bit =
      es.e2fs_first_dblock.toNat + (cg * es.e2fs_bpg.toNat + bit : ℕ) := by
  have hlt := hd.mul_le hp hcg
  have hcount := es.e2fs_bcount.isLt
  have hmul : cg * es.e2fs_fpg.toNat = cg * es.e2fs_bpg.toNat := by
    rcases hp.stride with h1 | h1
    · have hcg0 : cg = 0 := by
        by_contra hne
        have := Nat.le_mul_of_pos_left es.e2fs_bpg.toNat (Nat.pos_of_ne_zero hne)
        omega
      rw [hcg0, Nat.zero_mul, Nat.zero_mul]
    · rw [h1]
  unfold Superblock.groupedBlocks at hlt
  rw [Superblock.alloccgBlock, hmul, u32_of_lt (by omega)]
  push_cast
  ring

theorem Plausible.alloccg (hp : Plausible es) (hd : Derived es fs) {cg bit : ℕ}
    (hcg : cg < fs.gcount) (hbit : bit < fs.bpg ∨ bit < fs.fpg) :
    fs.dtog es (es.alloccgBlock cg bit) = cg ∧ fs.dtogd es (es.alloccgBlock cg bit) = bit := by
  have hfpg := hp.fpg
  rw [hd.bpg, hd.fpg] at hbit
  have hbit' : bit < es.e2fs_bpg.toNat := by omega
  have hsub : es.alloccgBlock cg bit - es.e2fs_first_dblock.toNat =
      (cg * es.e2fs_bpg.toNat + bit : ℕ) := by
    rw [hp.alloccgBlock_eq hd bit hcg]
    omega
  rw [Geometry.dtog, Geometry.dtogd, hsub, hd.bpg, Int.tdiv_eq_ediv_of_nonneg (by omega),
    Int.tmod_eq_emod_of_nonneg (by omega)]
  norm_cast
  rw [mul_comm, Nat.mul_add_div (by omega), Nat.div_eq_of_lt hbit', Nat.mul_add_mod,
    Nat.mod_eq_of_lt hbit']
  exact ⟨rfl, rfl⟩

/-- A sound geometry comes from a plausible superblock: each relation is needed by one use. -/
theorem Sound.plausible (hs : Sound es fs) (hd : Derived es fs)
    (hcheck : ext2CheckSbCompat es ronly = 0) : Plausible es := by
  obtain ⟨hlog, hbpg, -⟩ := hd.bounds hcheck
  have hgcount := hs.gcount_eq
  have hpos := hs.gcount_pos
  rw [hd.gcount] at hgcount hpos
  obtain ⟨hfirst, hroom⟩ := (gcount_iff es.e2fs_bcount.isLt es.e2fs_first_dblock.isLt hbpg
    es.e2fs_bpg.isLt).1 ⟨hpos, hgcount⟩
  have hcount : fs.gcount = (es.groupedBlocks + es.e2fs_bpg.toNat - 1) / es.e2fs_bpg.toNat := by
    rw [hd.gcount]
    unfold Superblock.groupedBlocks
    congr 1
    unfold u32
    omega
  have hfpb := hs.divisors.2.2.2.2.1
  rw [hd.fpb, hd.bsize, hd.bshift] at hfpb
  -- the first block after the group's own ones belongs to no bit of the group
  have hfpg : es.e2fs_fpg.toNat ≤ es.e2fs_bpg.toNat := by
    by_contra hlt
    have h := (hs.alloccg 0 es.e2fs_bpg.toNat hs.gcount_pos (Or.inr (by rw [hd.fpg]; omega))).2
    have hmod := Int.tmod_lt_of_pos (es.alloccgBlock 0 es.e2fs_bpg.toNat - es.e2fs_first_dblock.toNat)
      (show (0 : ℤ) < (fs.bpg : ℤ) by rw [hd.bpg]; omega)
    rw [Geometry.dtogd] at h
    rw [h, hd.bpg] at hmod
    omega
  refine ⟨hs.divisors.2.2.2.2.2, ?_, hfirst, hroom, ?_, hfpg, ?_⟩
  · exact (fragsPerBlock_ne_zero_iff hlog _).1 ⟨hfpb, hs.shifts.2.2.2⟩
  · rw [← hcount]
    have hipg : 0 < fs.ipg := Nat.pos_of_ne_zero hs.divisors.2.1
    by_contra hlt
    have h := hs.inoToCg_lt es.e2fs_icount.toNat (by omega) le_rfl
    rw [Geometry.inoToCg, Nat.div_lt_iff_lt_mul hipg, mul_comm, hd.ipg] at h
    omega
  · by_cases hone : es.groupedBlocks ≤ es.e2fs_bpg.toNat
    · exact Or.inl hone
    -- with a second group, its first block is the one that tells the strides apart
    · right
      have hone' : 1 < fs.gcount := by
        rw [hcount]
        apply (Nat.le_div_iff_mul_le hbpg).2
        omega
      obtain ⟨hdiv, hmod⟩ := hs.alloccg 1 0 hone' (Or.inl (by rw [hd.bpg]; omega))
      have hsplit := Int.tdiv_mul_add_tmod (es.alloccgBlock 1 0 - es.e2fs_first_dblock.toNat) fs.bpg
      rw [Geometry.dtog] at hdiv
      rw [Geometry.dtogd] at hmod
      simp only [Nat.cast_zero, Nat.cast_one] at hdiv hmod
      rw [hdiv, hmod, hd.bpg, Superblock.alloccgBlock] at hsplit
      apply BitVec.eq_of_toNat_eq
      have hf := es.e2fs_fpg.isLt
      have hg := es.e2fs_bpg.isLt
      have hd' := es.e2fs_first_dblock.isLt
      unfold u32 at hsplit
      omega

/-- **The exact condition.**  The geometry that the driver derives from a superblock it accepts is
sound exactly when the fields satisfy the relations it does not test. -/
theorem sound_iff {D : Type} {bread : ℤ → Except Errno D} {mount : SbData D}
    (hcheck : ext2CheckSbCompat es ronly = 0) (hmount : computeSbData bread es = .ok mount) :
    Sound es mount.toGeometry ↔ Plausible es := by
  have hd := sbGeometry_ok (computeSbData_ok hmount).1
  constructor
  · intro hs
    exact hs.plausible hd hcheck
  · intro hp
    obtain ⟨hlog, hbpg, hipb⟩ := hd.bounds hcheck
    obtain ⟨hpos, hceil⟩ := (gcount_iff es.e2fs_bcount.isLt es.e2fs_first_dblock.isLt hbpg
      es.e2fs_bpg.isLt).2 ⟨hp.first, hp.bpg⟩
    rw [← hd.gcount] at hpos hceil
    have hipg : es.e2fs_ipg.toNat ≠ 0 := by
      intro h0
      exact hp.ipg (BitVec.eq_of_toNat_eq h0)
    have hfpb := (fragsPerBlock_ne_zero_iff hlog _).2 hp.logFsize
    constructor
    case divisors =>
      refine ⟨?_, ?_, hipb.ne', by omega, ?_, hp.ipg⟩
      · rw [hd.bpg]
        omega
      · rwa [hd.ipg]
      · rw [hd.fpb, hd.bsize, hd.bshift]
        exact hfpb.1
    case shifts =>
      rw [hd.bshift, hd.fsbtodb]
      exact ⟨by omega, by omega, by omega, hfpb.2⟩
    case gcount_pos => exact hpos
    case gcount_eq => exact hceil
    case dtog_lt => exact fun b hb hb' => hp.dtog_lt hd hbpg hb hb'
    case inoToCg_lt => exact fun i hi hi' => hp.inoToCg_lt hd hi hi'
    case alloccg => exact fun cg bit hcg hbit => hp.alloccg hd hcg hbit

end Accepted

/-! ### Two superblocks -/

/-- The superblock of a volume of 8 MiB in blocks of 1 KiB, one group of 8192 blocks. -/
def plainSb : Superblock where
  e2fs_icount := 2048
  e2fs_bcount := 8192
  e2fs_rbcount := 409
  e2fs_first_dblock := 1
  e2fs_log_bsize := 0
  e2fs_log_fsize := 0
  e2fs_bpg := 8192
  e2fs_fpg := 8192
  e2fs_ipg := 2048
  e2fs_magic := E2FS_MAGIC
  e2fs_rev := E2FS_REV1
  e2fs_first_ino := EXT2_FIRSTINO
  e2fs_inode_size := 128
  e2fs_features_incompat := EXT2F_INCOMPAT_FTYPE
  e2fs_features_rocompat := EXT2F_ROCOMPAT_SPARSESUPER
  e3fs_desc_size := 0

/-- What `compute_sb_data` makes of it. -/
def plainMount : SbData Unit where
  bshift := 10
  bsize := 1024
  fsbtodb := 1
  fsize := 1024
  fpb := 1
  bpg := 8192
  fpg := 8192
  ipg := 2048
  isize := 128
  ipb := 8
  itpg := 256
  gcount := 1
  gdsize := 32
  gdbcount := 1
  maxfilesize := 0x7fffffff
  gd := [()]

theorem plainSb_sound_iff :
    computeSbData (fun _ => .ok ()) plainSb = .ok plainMount ∧
      (Sound plainSb plainMount.toGeometry ↔ Plausible plainSb) := by
  have hmount : computeSbData (fun _ => .ok ()) plainSb = .ok plainMount := by decide +kernel
  have hcheck : ext2CheckSbCompat plainSb false = 0 := by decide +kernel
  exact ⟨hmount, sound_iff hcheck hmount⟩

/-- A volume that says it has no inodes in a group. -/
def zeroIpg : Superblock := { plainSb with e2fs_ipg := 0 }

/-- It is mounted, for writing too, and every use of `ino_to_cg` and `ino_to_fsba` then divides by
zero. -/
theorem zeroIpg_unsound :
    ext2CheckSbCompat zeroIpg false = 0 ∧
      ∃ mount : SbData Unit, computeSbData (fun _ => .ok ()) zeroIpg = .ok mount ∧
        ¬Sound zeroIpg mount.toGeometry := by
  refine ⟨by decide +kernel, { plainMount with ipg := 0, itpg := 0 }, by decide +kernel, ?_⟩
  intro hs
  exact hs.divisors.2.1 rfl

end Ext2fs
