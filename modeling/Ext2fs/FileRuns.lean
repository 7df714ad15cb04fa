import Ext2fs.Lib.Runs
import Ext2fs.ReadWrite
import Ext2fs.TruncateSpec

/-!
# Runs of writes and truncations on one file

A regular file that starts empty is written and truncated, each call with its own answers from the rest
of the kernel.  `World.Within C` says that nothing is mapped from block `C` on; a call of `ext2_balloc`
may raise `C`, and `i_size` has to follow.

* `extendLoop_within` — the loop of `ext2_extend_alloc`;
* `ext2Write_inv`, `ext2Truncate_inv` — one call keeps `FileInv`, if it is `Clean`;
* `file_runs` — every run of clean calls;
* `file_run_panics` — a failed `cluster_write`, after which the next write panics.
-/

namespace Ext2fs

open PtrTree

/-- Nothing of the file lies at or behind logical block `C`. -/
structure World.Within (fs : MExt2fs) (w : World) (C : ℕ) : Prop where
  sound : w.Sound fs
  range : ∀ b, w.Owned fs b → b < 2 ^ 31
  above : ∀ l, C ≤ l → w.map fs l = 0
  roots : ∀ level < NIADDR, w.ip.ib level ≠ 0 → fs.nindir ^ level ≤ C - NDADDR
  panicked : w.panicked = false

/-- The file ends where its size says. -/
structure FileInv (fs : MExt2fs) (w : World) : Prop where
  within : w.Within fs (fs.coveredBlocks w.ip.size)
  size_le : w.ip.size ≤ fs.maxfilesize

/-- What a file has to be after every call: no block at or behind the end is mapped, the kernel runs,
and `fsck` accepts the pointers. -/
structure FileOk (fs : MExt2fs) (w : World) : Prop where
  above : ∀ l, fs.coveredBlocks w.ip.size ≤ l → w.map fs l = 0
  running : w.panicked = false
  fsck : fsckRangeTest fs w.ip = true

section

variable {fs : MExt2fs} {w : World} {C : ℕ}

theorem World.Within.mono {C' : ℕ} (h : w.Within fs C) (hC : C ≤ C') : w.Within fs C' where
  sound := h.sound
  range := h.range
  above l hl := h.above l (hC.trans hl)
  roots level hl hne := (h.roots level hl hne).trans (Nat.sub_le_sub_right hC _)
  panicked := h.panicked

/-- Only the pointers matter. -/
theorem World.Within.congr {w' : World} (h : w.Within fs C) (hdb : w'.ip.db = w.ip.db)
    (hib : w'.ip.ib = w.ip.ib) (hdev : w'.dev = w.dev) (hav : w'.avail = w.avail)
    (hpanic : w'.panicked = w.panicked) : w'.Within fs C := by
  have hst : w'.store fs = w.store fs := by unfold World.store; rw [hdev]
  have hslot : w'.ip.slot = w.ip.slot := Inode.slot_congr hdb hib
  have howned : ∀ b, w'.Owned fs b ↔ w.Owned fs b := by
    intro b
    simp only [World.Owned, Owns, hst, hslot]
  refine ⟨⟨⟨fun s hs => ?_, fun s hs s' hs' hne b hb => ?_⟩, fun b hb => ?_⟩, fun b hb => ?_,
    fun l hl => ?_, fun level hl hne => ?_, hpanic.trans h.panicked⟩
  · rw [hst, hslot]
    exact h.sound.shaped.sep s hs
  · rw [hst, hslot] at hb ⊢
    exact h.sound.shaped.disjoint s hs s' hs' hne b hb
  · rw [hav]
    exact h.sound.used b ((howned b).1 hb)
  · exact h.range b ((howned b).1 hb)
  · simp only [World.map, blockMap, hst, hslot]
    exact h.above l hl
  · exact h.roots level hl (hib ▸ hne)

theorem howmany_bsize (fs : MExt2fs) (size : ℕ) : howmany size fs.bsize = fs.coveredBlocks size := by
  have := fs.bsize_pos
  unfold howmany MExt2fs.coveredBlocks MExt2fs.lblkno
  congr 1
  omega

/-- The invariant is what the callers see, and what `fsck` tests. -/
theorem FileInv.ok (h : FileInv fs w) : FileOk fs w := by
  refine ⟨h.within.above, h.within.panicked, ?_⟩
  have hN : 1 < fs.nindir := by
    rcases fs.nindir_cases with h | h | h <;> omega
  simp only [fsckRangeTest, howmany_bsize, Bool.and_eq_true, decide_eq_true_eq]
  refine ⟨fun j h12 hj => ?_, fun level hl hj => ?_⟩
  · rw [← map_direct fs h12]
    exact h.within.above j hj
  · rw [indirLevels_le_iff hN le_rfl] at hj
    by_contra hne
    have := h.within.roots level hl hne
    omega

/-- A file without blocks and without a size. -/
structure World.EmptyFile (w : World) : Prop where
  size : w.ip.size = 0
  slots : ∀ s < NSLOTS, w.ip.slot s = 0
  running : w.panicked = false

theorem World.EmptyFile.inv (h : w.EmptyFile) : FileInv fs w := by
  have hmem : ∀ s < NSLOTS, ∀ b, ¬ Mem fs.nindir (w.store fs) (height s) (w.ip.slot s) b := by
    intro s hs b
    rw [h.slots s hs]
    exact not_mem_null
  refine ⟨⟨⟨⟨fun s hs => ?_, fun s hs _ _ _ b hb => absurd hb (hmem s hs b)⟩, fun b hb => ?_⟩,
    fun b hb => ?_, fun l _ => ?_, fun level hl hne => ?_, h.running⟩, ?_⟩
  · rw [h.slots s hs]
    exact sep_null
  · obtain ⟨s, hs, hb⟩ := hb
    exact absurd hb (hmem s hs b)
  · obtain ⟨s, hs, hb⟩ := hb
    exact absurd hb (hmem s hs b)
  · by_contra hne
    obtain ⟨s, hs, hb⟩ := blockMap_owns fs.nindir_pos hne
    exact hmem s hs _ hb
  · have hslot := h.slots (12 + level) (by unfold NSLOTS NDADDR; omega)
    rw [Inode.slot_indirect (by omega), Nat.add_sub_cancel_left] at hslot
    exact absurd hslot hne
  · rw [h.size]
    exact Nat.zero_le _

/-! ### One call of `ext2_balloc` -/

theorem fragroundup_eq (hfrag : fs.fsize = fs.bsize) {x : ℕ} (h : 0 < x) (hx : x ≤ fs.bsize) :
    fs.fragroundup x = fs.bsize := by
  have hone : (x + (fs.bsize - 1)) / fs.bsize = 1 := by
    rw [Nat.div_eq_iff fs.bsize_pos]
    omega
  unfold MExt2fs.fragroundup
  rw [hfrag, hone, Nat.one_mul]

/-- A slot that serves a block below `C` passes the range test for `C` blocks. -/
theorem pow_le_of_base_lt {N level : ℕ} (hl : level < NIADDR) (h : base N (12 + level) < C) :
    N ^ level ≤ C - NDADDR := by
  unfold NIADDR at hl
  unfold NDADDR
  interval_cases level
  · rw [Nat.add_zero, base_single] at h
    rw [pow_zero]
    omega
  · rw [base_double] at h
    rw [pow_one]
    omega
  · rw [base_triple] at h
    omega

/-- No block can be had for the root of an indirect level, or it cannot be cleared. -/
def World.RootRefused (fs : MExt2fs) (w : World) (env : BallocEnv) (lbn level : ℕ) : Prop :=
  let w := w.bumpNextAlloc lbn
  w.takeBlock fs lbn (env.alloc 0 (ext2Blkpref fs w.ip lbn (level + NDADDR) w.ip.slot 0)) = none ∨
    env.getblk 0 = false ∨ env.zeroWrite 0 = false

/-- A call for a block may leave behind the root of an indirect level that the size of the file does
not call for. -/
def World.RootLeft (fs : MExt2fs) (w : World) (env : BallocEnv) (lbn : ℕ) : Prop :=
  ∃ level < NIADDR, (∃ off, locate fs.nindir lbn = some (12 + level, off)) ∧ w.ip.ib level = 0 ∧
    fs.coveredBlocks w.ip.size - NDADDR < fs.nindir ^ level ∧ ¬ w.RootRefused fs env lbn level

variable {env : BallocEnv} {sync : Bool} {lbn size : ℕ}

theorem bumpNextAlloc_ib (w : World) (l : ℤ) : (w.bumpNextAlloc l).ip.ib = w.ip.ib := by
  unfold World.bumpNextAlloc
  split <;> rfl

theorem ext2Balloc_refused {level off : ℕ} (hl : locate fs.nindir lbn = some (12 + level, off))
    (hzero : w.ip.ib level = 0) (href : w.RootRefused fs env lbn level) :
    (ext2Balloc fs env sync lbn size w).2.ip.ib level = 0 := by
  have hge : ¬ (lbn : ℤ) < NDADDR := by
    have hlbn := (locate_eq_some.1 hl).2.2
    have hbase : base fs.nindir 11 + fs.nindir ^ height 11 ≤ base fs.nindir (12 + level) :=
      base_add_le (by omega)
    rw [base_direct (by omega), height_direct (by omega), pow_zero] at hbase
    unfold NDADDR
    omega
  obtain ⟨ap, path, hget, hap, _, _⟩ := getlbns_path fs.nindir_pos fs.nindir_lt hl (by omega)
  have hoff : ap.off = level := by omega
  have hnb : (w.bumpNextAlloc lbn).ip.ib level = 0 := by rw [bumpNextAlloc_ib, hzero]
  unfold ext2Balloc
  rw [if_neg (by omega)]
  simp only [if_neg hge, hget, Int.toNat_natCast]
  unfold ballocIndirect
  simp only [hoff, hnb, ne_eq, not_true_eq_false, if_false]
  unfold World.RootRefused at href
  simp only at href
  generalize htake : (w.bumpNextAlloc lbn).takeBlock fs lbn _ = took at href ⊢
  cases took with
  | none => rwa [World.lostBit_ip]
  | some t =>
    obtain ⟨newb, w₁⟩ := t
    have hib : w₁.ip.ib level = 0 := by rw [(World.takeBlock_spec htake).ib, hnb]
    have hback : (w₁.blkfree fs env.bitmapOk newb).ip.ib level = 0 := by
      rw [World.blkfree_ip, hib]
    simp only
    split
    · exact hback
    · next hget =>
      split
      · exact hback
      · next hzeroed =>
        rcases href with h | h | h
        · exact absurd h (by simp)
        · exact absurd h hget
        · exact absurd h hzeroed

/-- What a call of `ext2_balloc` does to a file of which nothing lies at or behind block `C`. -/
structure BallocWithin (fs : MExt2fs) (env : BallocEnv) (lbn C : ℕ) (w : World)
    (r : Option Errno × World) : Prop where
  size : r.2.ip.size = w.ip.size
  grown : r.2.Within fs (max C (lbn + 1))
  failed : r.1 ≠ none → C = fs.coveredBlocks w.ip.size → ¬ w.RootLeft fs env lbn → r.2.Within fs C

/-- Without fragments, a block that is mapped only within the size of the file is there as a whole. -/
theorem World.Within.not_mappedPastEnd (h : w.Within fs C) (hfrag : fs.fsize = fs.bsize) {lbn size : ℕ}
    (hC : C ≤ max (fs.coveredBlocks w.ip.size) lbn) (hsize : size ≤ fs.bsize) :
    ¬ w.MappedPastEnd fs lbn size := by
  rintro ⟨h12, hdb, hlt, hround⟩
  have hb := fs.bsize_pos
  have hlast : lbn < fs.coveredBlocks w.ip.size := by
    by_contra hge
    rw [← map_direct fs h12] at hdb
    exact hdb (h.above lbn (by omega))
  have hcov := coveredBlocks_eq fs w.ip.size
  have hdm := Nat.div_add_mod' w.ip.size fs.bsize
  have hmod := Nat.mod_lt w.ip.size hb
  have hdiv : w.ip.size / fs.bsize ≤ lbn := by
    rw [← Nat.lt_succ_iff, Nat.div_lt_iff_lt_mul hb]
    exact hlt
  unfold MExt2fs.blkoff MExt2fs.lblkno at *
  split at hcov
  · omega
  · next hoff =>
    rw [fragroundup_eq hfrag (by omega) hmod.le] at hround
    rcases Nat.eq_zero_or_pos size with rfl | hpos
    · unfold MExt2fs.fragroundup at hround
      rw [hfrag, Nat.zero_add, Nat.div_eq_of_lt (by omega)] at hround
      omega
    · rw [fragroundup_eq hfrag hpos hsize] at hround
      exact absurd hround (lt_irrefl _)

theorem World.Within.balloc (h : w.Within fs C) (hfrag : fs.fsize = fs.bsize) (env : BallocEnv)
    (sync : Bool) (lbn size : ℕ) (hC : C ≤ max (fs.coveredBlocks w.ip.size) lbn)
    (hsize : size ≤ fs.bsize) :
    BallocWithin fs env lbn C w (ext2Balloc fs env sync lbn size w) := by
  have spec := ext2Balloc_spec env sync lbn size h.sound
  have hsound := ext2Balloc_sound env sync lbn size h.sound
  have href : ∀ level off, locate fs.nindir lbn = some (12 + level, off) → w.ip.ib level = 0 →
      w.RootRefused fs env lbn level → (ext2Balloc fs env sync lbn size w).2.ip.ib level = 0 :=
    fun level off hl hz hr => ext2Balloc_refused hl hz hr
  generalize ext2Balloc fs env sync lbn size w = r at spec hsound href ⊢
  have hpanic : r.2.panicked = false := by
    exact (spec.panicked.resolve_right (h.not_mappedPastEnd hfrag hC hsize)).trans h.panicked
  have hrange : ∀ b, r.2.Owned fs b → b < 2 ^ 31 := fun b hb =>
    (spec.grows.owns_fresh b hb).elim (h.range b) fun hf => hf.2
  have hroot : ∀ level < NIADDR, r.2.ip.ib level = w.ip.ib level ∨
      ∃ off, locate fs.nindir lbn = some (12 + level, off) := by
    intro level hl
    have hslot := spec.slots (12 + level) (by unfold NSLOTS NDADDR; omega)
    rwa [Inode.slot_indirect (by omega), Inode.slot_indirect (by omega),
      Nat.add_sub_cancel_left] at hslot
  refine ⟨spec.calm.size, ⟨hsound, hrange, fun l hl => ?_, fun level hl hne => ?_, hpanic⟩,
    fun hfail hK hleft => ⟨hsound, hrange, fun l hl => ?_, fun level hl hne => ?_, hpanic⟩⟩
  · rw [World.map, spec.grows.map_ne l (by omega)]
    exact h.above l (by omega)
  · rcases hroot level hl with hsame | ⟨off, hloc⟩
    · rw [hsame] at hne
      exact (h.roots level hl hne).trans (Nat.sub_le_sub_right (le_max_left _ _) _)
    · have hlbn := (locate_eq_some.1 hloc).2.2
      exact pow_le_of_base_lt hl (by omega)
  · by_cases heq : l = lbn
    · rw [heq, spec.failed hfail]
      exact h.above lbn (heq ▸ hl)
    · rw [World.map, spec.grows.map_ne l heq]
      exact h.above l hl
  · by_cases hzero : w.ip.ib level = 0
    · rcases hroot level hl with hsame | ⟨off, hloc⟩
      · exact absurd (hsame.trans hzero) hne
      · by_contra hlt
        refine hleft ⟨level, hl, ⟨off, hloc⟩, hzero, by omega, fun hr => ?_⟩
        exact hne (href level off hloc hzero hr)
    · exact h.roots level hl hzero

/-! ### Writing -/

/-- The loop stops at its first failure. -/
theorem extendLoop_add (env : ℕ → BallocEnv) (n m lbn : ℕ) (w : World) :
    extendLoop fs env (n + m) lbn w =
      match extendLoop fs env n lbn w with
      | (some e, w) => (some e, w)
      | (none, w) => extendLoop fs env m (lbn + n) w := by
  induction n generalizing lbn w with
  | zero => simp only [Nat.zero_add, Nat.add_zero, extendLoop_zero]
  | succ n ih =>
    simp only [Nat.add_right_comm n 1 m, extendLoop_succ]
    generalize ext2Balloc fs (env lbn) false lbn fs.fsize w = r
    obtain ⟨e, w'⟩ := r
    cases e with
    | some e => rfl
    | none => simp only [ih, Nat.add_assoc, Nat.add_comm 1 n]

/-- The loop raises the bound to the last block it was called for. -/
theorem extendLoop_within (hfrag : fs.fsize = fs.bsize) (env : ℕ → BallocEnv) : ∀ (n lbn : ℕ)
    (w : World) (K : ℕ),
    K = fs.coveredBlocks w.ip.size → w.Within fs (max K lbn) →
    (extendLoop fs env n lbn w).2.ip.size = w.ip.size ∧
      (extendLoop fs env n lbn w).2.Within fs (max K (lbn + n)) := by
  intro n
  induction n with
  | zero => exact fun lbn w K _ h => ⟨rfl, h⟩
  | succ n ih =>
    intro lbn w K hK h
    have hstep := h.balloc hfrag (env lbn) false lbn fs.fsize (by rw [hK]) hfrag.le
    rw [extendLoop_succ]
    generalize ext2Balloc fs (env lbn) false lbn fs.fsize w = r at hstep ⊢
    obtain ⟨e, w'⟩ := r
    cases e with
    | some e => exact ⟨hstep.size, hstep.grown.mono (by omega)⟩
    | none =>
      obtain ⟨hsize, hwithin⟩ := ih (lbn + 1) w' K (by rw [hK, hstep.size])
        (hstep.grown.mono (by omega))
      exact ⟨hsize.trans hstep.size, hwithin.mono (by omega)⟩

/-- A call of `ext2_write` after which the file ends where its size says: it is refused at once, or
stays within the last block of the file, or goes well as a whole; or the first failure comes no later
than at the first block behind the end, and leaves no root of an indirect level there. -/
def WriteEnv.Clean (fs : MExt2fs) (env : WriteEnv) (append : Bool) (offset : ℤ) (resid : ℕ)
    (w : World) : Prop :=
  let offset : ℤ := if append then w.ip.size else offset
  let lbn := fs.lblkno offset.toNat
  let endlbn := fs.lblkno (offset.toNat + resid - 1)
  let K := fs.coveredBlocks w.ip.size
  let r := extendLoop fs env.balloc (max lbn K - lbn) lbn w
  offset < 0 ∨ resid = 0 ∨ (fs.maxfilesize : ℤ) < offset + resid ∨ endlbn < K ∨
    ((ext2ExtendAlloc fs env.balloc offset.toNat resid w).1 = none ∧ env.clusterWrite = none) ∨
    r.1 ≠ none ∨
    ((ext2Balloc fs (env.balloc (max lbn K)) false (max lbn K : ℕ) fs.fsize r.2).1 ≠ none ∧
      ¬ r.2.RootLeft fs (env.balloc (max lbn K)) (max lbn K))

theorem coveredBlocks_pos (fs : MExt2fs) {x : ℕ} (h : 0 < x) :
    fs.coveredBlocks x = fs.lblkno (x - 1) + 1 := by
  unfold MExt2fs.coveredBlocks MExt2fs.lblkno
  rw [Nat.sub_add_comm h, Nat.add_div_right _ fs.bsize_pos]

theorem World.Within.setSize (h : w.Within fs C) (length : ℕ) : (w.setSize length).Within fs C :=
  h.congr rfl rfl rfl rfl rfl

theorem World.Within.mark (h : w.Within fs C) : w.mark.Within fs C :=
  h.congr rfl rfl rfl rfl rfl

/-- `ext2_update` writes the inode back as it is. -/
theorem ext2Update_inv {env : UpdateEnv} {waitfor : Bool} (h : FileInv fs w) :
    FileInv fs (ext2Update fs env waitfor w).2 := by
  obtain ⟨flag, image, hup, _⟩ := ext2Update_frame fs env waitfor w
  rw [hup]
  exact ⟨h.within.congr rfl rfl rfl rfl rfl, h.size_le⟩

/-- A loop that fails no later than at the first block behind the end leaves nothing there. -/
theorem extendLoop_clean (hfrag : fs.fsize = fs.bsize) {env : ℕ → BallocEnv} {m n : ℕ}
    (h : FileInv fs w)
    (hm : m = max lbn (fs.coveredBlocks w.ip.size)) (hn : m < lbn + n)
    (hclean : (extendLoop fs env (m - lbn) lbn w).1 ≠ none ∨
      ((ext2Balloc fs (env m) false m fs.fsize (extendLoop fs env (m - lbn) lbn w).2).1 ≠ none ∧
        ¬ (extendLoop fs env (m - lbn) lbn w).2.RootLeft fs (env m) m)) :
    (extendLoop fs env n lbn w).1 ≠ none ∧
      (extendLoop fs env n lbn w).2.ip.size = w.ip.size ∧
      (extendLoop fs env n lbn w).2.Within fs (fs.coveredBlocks w.ip.size) := by
  have hsplit : n = (m - lbn) + ((n - 1 - (m - lbn)) + 1) := by omega
  have hat : lbn + (m - lbn) = m := by omega
  -- up to the end of the file the bound stays where it is
  have hbefore : (extendLoop fs env (m - lbn) lbn w).2.ip.size = w.ip.size ∧
      (extendLoop fs env (m - lbn) lbn w).2.Within fs (fs.coveredBlocks w.ip.size) := by
    by_cases hle : fs.coveredBlocks w.ip.size ≤ lbn
    · have hzero : m - lbn = 0 := by omega
      rw [hzero]
      exact ⟨rfl, h.within⟩
    · obtain ⟨hsize, hwithin⟩ := extendLoop_within hfrag env (m - lbn) lbn w _ rfl
        (h.within.mono (le_max_left _ _))
      exact ⟨hsize, hwithin.mono (by omega)⟩
  rw [hsplit, extendLoop_add, hat]
  generalize extendLoop fs env (m - lbn) lbn w = r at hclean hbefore ⊢
  obtain ⟨e, w'⟩ := r
  obtain ⟨hsize, hwithin⟩ := hbefore
  cases e with
  | some e => exact ⟨by simp, hsize, hwithin⟩
  | none =>
    obtain ⟨hfail, hleft⟩ := hclean.resolve_left (by simp)
    have hstep := hwithin.balloc hfrag (env m) false m fs.fsize
      (by simp only at hsize; omega) hfrag.le
    simp only at hsize hfail hleft ⊢
    rw [extendLoop_succ]
    generalize ext2Balloc fs (env m) false m fs.fsize w' = r at hstep hfail ⊢
    obtain ⟨e, w''⟩ := r
    cases e with
    | some e => exact ⟨by simp, hstep.size.trans hsize, hstep.failed hfail (by rw [hsize]) hleft⟩
    | none => exact absurd rfl hfail

/-- What the allocation of the range of a clean write leaves behind. -/
theorem ext2ExtendAlloc_within (hfrag : fs.fsize = fs.bsize) {env : WriteEnv} {o resid : ℕ}
    (h : FileInv fs w)
    (hresid : resid ≠ 0) (hbig : o + resid ≤ fs.maxfilesize)
    (hclean : env.Clean fs false o resid w) :
    let r := ext2ExtendAlloc fs env.balloc o resid w
    r.2.ip.size = w.ip.size ∧
      r.2.Within fs (fs.coveredBlocks (max w.ip.size (o + resid))) ∧
      (r.1 ≠ none ∨ env.clusterWrite ≠ none → r.2.Within fs (fs.coveredBlocks w.ip.size)) := by
  simp only
  have hcov := coveredBlocks_pos fs (x := o + resid) (by omega)
  have hfirst : fs.lblkno o ≤ fs.lblkno (o + resid - 1) := Nat.div_le_div_right (by omega)
  have hnew : fs.coveredBlocks (max w.ip.size (o + resid))
      = max (fs.coveredBlocks w.ip.size) (fs.lblkno (o + resid - 1) + 1) := by
    rw [← hcov]
    exact (monotone_iff_forall_lt.2 fun _ _ hlt => coveredBlocks_mono hlt.le).map_max
  have halloc : ext2ExtendAlloc fs env.balloc o resid w = extendLoop fs env.balloc
      (fs.lblkno (o + resid - 1) + 1 - fs.lblkno o) (fs.lblkno o) w := if_neg hresid
  obtain ⟨hsize, hwithin⟩ := extendLoop_within hfrag env.balloc
    (fs.lblkno (o + resid - 1) + 1 - fs.lblkno o) (fs.lblkno o) w _ rfl
    (h.within.mono (le_max_left _ _))
  have hend : fs.lblkno o + (fs.lblkno (o + resid - 1) + 1 - fs.lblkno o)
      = fs.lblkno (o + resid - 1) + 1 := by omega
  rw [hend] at hwithin
  unfold WriteEnv.Clean at hclean
  simp only [Bool.false_eq_true, if_false, Int.toNat_natCast] at hclean
  rw [← halloc] at hsize hwithin
  refine ⟨hsize, hwithin.mono hnew.ge, fun hfail => ?_⟩
  by_cases hin : fs.lblkno (o + resid - 1) < fs.coveredBlocks w.ip.size
  · exact hwithin.mono (by omega)
  · have hlast : max (fs.lblkno o) (fs.coveredBlocks w.ip.size)
        < fs.lblkno o + (fs.lblkno (o + resid - 1) + 1 - fs.lblkno o) := by omega
    rcases hclean with hc | hc | hc | hc | hc | hc
    · omega
    · exact absurd hc hresid
    · omega
    · exact absurd hc hin
    · exact absurd hfail (by simp [hc.1, hc.2])
    · rw [halloc]
      exact (extendLoop_clean hfrag h rfl hlast hc).2.2

/-- A size that is set only to make the file longer is set. -/
theorem World.setSize_of_lt {size length : ℕ} (h : size ≤ length) (hw : w.ip.size = size) :
    (if size < length then w.setSize length else w) = w.setSize length := by
  split
  · rfl
  · next hge =>
    obtain rfl : length = w.ip.size := by omega
    rfl

/-- A size that was set only to make the file longer is put back. -/
theorem World.setSize_back {size length : ℕ} (h : size ≤ length) (hw : w.ip.size = length) :
    (if size < length then w.setSize size else w) = w.setSize size := by
  split
  · rfl
  · next hge =>
    obtain rfl : size = w.ip.size := by omega
    rfl

/-- **One write.** -/
theorem ext2Write_inv (hfrag : fs.fsize = fs.bsize) {env : WriteEnv} {append sync : Bool}
    {offset : ℤ} {resid : ℕ}
    (h : FileInv fs w) (hclean : env.Clean fs append offset resid w) :
    FileInv fs (ext2Write fs env append sync offset resid w).2 := by
  have hclean' : env.Clean fs false (if append then (w.ip.size : ℤ) else offset) resid w := hclean
  unfold ext2Write
  simp only
  generalize (if append then (w.ip.size : ℤ) else offset) = off at hclean' ⊢
  split
  · exact h
  · next hneg =>
    split
    · exact h
    · next hresid =>
      split
      · exact h
      · next hbig =>
        obtain ⟨o, rfl⟩ : ∃ o : ℕ, off = o := ⟨off.toNat, by omega⟩
        rw [Int.toNat_natCast]
        have hle : w.ip.size ≤ max w.ip.size (o + resid) := le_max_left _ _
        have hmax : max w.ip.size (o + resid) ≤ fs.maxfilesize := max_le h.size_le (by omega)
        have halloc := ext2ExtendAlloc_within hfrag h hresid (by omega) hclean'
        generalize ext2ExtendAlloc fs env.balloc o resid w = r at halloc ⊢
        generalize max w.ip.size (o + resid) = newEOF at hle hmax halloc ⊢
        obtain ⟨e, w'⟩ := r
        obtain ⟨hsize, hgrown, hkept⟩ := halloc
        simp only at hsize hgrown hkept ⊢
        cases e with
        | some e => exact ⟨hsize ▸ hkept (.inl (by simp)), hsize ▸ h.size_le⟩
        | none =>
          simp only [World.setSize_of_lt hle hsize]
          split
          · next ecw hcw =>
            -- the size is put back, the blocks stay
            rw [World.setSize_back hle rfl]
            have hk : w'.Within fs (fs.coveredBlocks w.ip.size) := hkept (.inr (by simp [hcw]))
            exact ⟨(hk.setSize newEOF).setSize w.ip.size, h.size_le⟩
          · have hmark : FileInv fs (w'.setSize newEOF).mark :=
              ⟨(hgrown.setSize newEOF).mark, hmax⟩
            split
            · exact ext2Update_inv hmark
            · exact hmark

/-! ### Truncating -/

/-- A call of `ext2_truncate` after which the file ends where its size says.  To make the file longer
it gets its last block, or leaves no root of an indirect level behind the end; to make it shorter it can
read and write the indirect blocks that are kept in part, as they are once the partial block has been
fetched. -/
def TruncEnv.Clean (fs : MExt2fs) (env : TruncEnv) (sync : Bool) (length : ℤ) (w : World) : Prop :=
  let len := length.toNat
  (0 ≤ length → w.ip.size < len → len ≤ fs.maxfilesize →
    let lbn := fs.lblkno (len - 1)
    (ext2Balloc fs env.balloc sync lbn (fs.blkoff (len - 1) + 1) w).1 = none ∨
      ¬ w.RootLeft fs env.balloc lbn) ∧
  (0 ≤ length → len < w.ip.size →
    let w' := (truncPartial fs env sync len w).2
    ∀ s < NSLOTS, 12 ≤ s → keptOf fs.nindir (fs.coveredBlocks len) s ≤ fs.nindir ^ height s →
      0 < keptOf fs.nindir (fs.coveredBlocks len) s →
      PathIo fs env (w'.store fs) (height s) (w'.ip.slot s)
        (keptOf fs.nindir (fs.coveredBlocks len) s))

/-- The end of the file moves away. -/
theorem truncExtend_inv (hfrag : fs.fsize = fs.bsize) {env : TruncEnv} {length : ℕ}
    (h : FileInv fs w) (hlen : w.ip.size < length)
    (hclean : length ≤ fs.maxfilesize →
      (ext2Balloc fs env.balloc sync (fs.lblkno (length - 1)) (fs.blkoff (length - 1) + 1) w).1
          = none ∨
        ¬ w.RootLeft fs env.balloc (fs.lblkno (length - 1))) :
    FileInv fs (truncExtend fs env sync length w).2 := by
  unfold truncExtend
  split
  · exact h
  · next hbig =>
    have hcov := coveredBlocks_pos fs (x := length) (by omega)
    have hbound := base_nslots_lt fs
    have hK : fs.coveredBlocks length ≤ base fs.nindir NSLOTS := coveredBlocks_le (by omega)
    have hlbn : i32 (fs.lblkno (length - 1) : ℤ) = fs.lblkno (length - 1) :=
      i32_of_lt (by omega) (by omega)
    have hmono : fs.coveredBlocks w.ip.size ≤ fs.coveredBlocks length := coveredBlocks_mono hlen.le
    have hstep := h.within.balloc hfrag env.balloc sync (fs.lblkno (length - 1))
      (fs.blkoff (length - 1) + 1) (le_max_left _ _) (Nat.mod_lt _ fs.bsize_pos)
    have hclean := hclean (by omega)
    simp only [hlbn]
    generalize ext2Balloc fs env.balloc sync (fs.lblkno (length - 1)) (fs.blkoff (length - 1) + 1) w
      = r at hstep hclean ⊢
    obtain ⟨e, w'⟩ := r
    cases e with
    | some e =>
      have hk := hstep.failed (by simp) rfl (hclean.resolve_left (by simp))
      exact ⟨hstep.size ▸ hk, hstep.size ▸ h.size_le⟩
    | none =>
      refine ext2Update_inv ⟨World.Within.mark (World.Within.setSize (hstep.grown.mono ?_) _), ?_⟩
      · show max _ _ ≤ fs.coveredBlocks length
        omega
      · show length ≤ _
        omega

/-- Fetching the partial block moves nothing behind the end. -/
theorem PartialSpec.within {r : Option Errno × World} {length : ℕ} (h : FileInv fs w)
    (hlen : length < w.ip.size) (hp : PartialSpec fs length w r) :
    r.2.Within fs (fs.coveredBlocks w.ip.size) where
  sound := hp.sound
  range b hb := (hp.owned_fresh b hb).elim (h.within.range b) fun hf => hf.2
  above l hl := by
    have hcov := coveredBlocks_eq fs length
    have hmono : fs.coveredBlocks length ≤ fs.coveredBlocks w.ip.size := coveredBlocks_mono hlen.le
    rw [hp.map_ne l]
    · exact h.within.above l hl
    · by_cases hoff : fs.blkoff length = 0
      · exact .inr (.inl hoff)
      · rw [if_neg hoff] at hcov
        exact .inl (by omega)
  roots level hl hne := by
    have hmono : fs.coveredBlocks length ≤ fs.coveredBlocks w.ip.size := coveredBlocks_mono hlen.le
    have hslot := hp.slots (12 + level) (by unfold NSLOTS NDADDR; omega)
    rw [Inode.slot_indirect (by omega), Inode.slot_indirect (by omega),
      Nat.add_sub_cancel_left] at hslot
    rcases hslot with hsame | hlt
    · exact h.within.roots level hl (hsame ▸ hne)
    · exact pow_le_of_base_lt hl (by omega)
  panicked := hp.panicked.trans h.within.panicked

/-- The release keeps the volume consistent: what is still referenced was not freed. -/
theorem ReleaseSpec.sound {env : TruncEnv} {length : ℕ} {w₁ : World} {u : Freeing}
    {r : Option Errno × World} (h : ReleaseSpec fs env length w w₁ u r) (hs : w.Sound fs)
    (htrims : MapTrims fs.nindir (w.store fs) (r.2.store fs) w.ip r.2.ip
      (fs.coveredBlocks length)) : r.2.Sound fs := by
  refine ⟨htrims.shaped, fun b hb => ?_⟩
  have hkept := (htrims.owns_iff b).1 hb
  have hnot : ¬ CutBy fs.nindir (w.store fs) w.ip (fs.coveredBlocks length) b := fun hc =>
    ((cutBy_iff hs.shaped).1 hc).2 hkept
  have hown : w.Owned fs b := by
    obtain ⟨s, hsn, hk⟩ := hkept
    exact ⟨s, hsn, hk.mem⟩
  obtain ⟨evs, _, _, hmem, _, havail⟩ := h.releases
  rw [havail b, hs.used b hown]
  intro hin
  obtain ⟨e, he, hbno⟩ := List.mem_map.1 hin
  obtain ⟨⟨s, hsn, hcut⟩, _⟩ := hmem e he
  rw [hbno] at hcut
  rcases hcut with ⟨b', hb', _, hc⟩ | ⟨hne, hzero, hroot⟩
  · rw [Int.natCast_inj] at hb'
    exact hnot ⟨s, hsn, hb' ▸ hc⟩
  · have hrange := h.start.range s hsn
    have hsame : w.ip.slot s = b := by
      by_cases hlt : w.ip.slot s < 2 ^ 31
      · have h32 : i32 (w.ip.slot s : ℤ) = w.ip.slot s := i32_of_lt (by omega) (by omega)
        omega
      · have h32 : i32 (w.ip.slot s : ℤ) = (w.ip.slot s : ℤ) - 2 ^ 32 := i32_neg (by omega) hrange
        omega
    refine hnot ⟨s, hsn, ?_⟩
    unfold keptOf at hzero
    rw [hzero, cut_zero, ← hsame]
    exact mem_root hne

/-- After a release that could cut every indirect block the file ends at its new size. -/
theorem ReleaseSpec.inv_of_io {env : TruncEnv} {length : ℕ} {w₁ : World} {u : Freeing}
    {r : Option Errno × World} (h : ReleaseSpec fs env length w w₁ u r) (hw : w.Within fs C)
    (hlen : length ≤ fs.maxfilesize)
    (hio : ∀ s < NSLOTS, SlotIo fs env (w.store fs) w.ip (fs.coveredBlocks length) s) :
    FileInv fs r.2 := by
  have htrims := h.trims hio
  have hsize : r.2.ip.size = length := h.size_eq
  refine ⟨?_, hsize ▸ hlen⟩
  rw [hsize]
  refine ⟨h.sound hw.sound htrims, fun b hb => ?_, fun l hl => ?_, fun level hl hne => ?_,
    h.panicked_eq.trans hw.panicked⟩
  · obtain ⟨s, hs, hk⟩ := (htrims.owns_iff b).1 hb
    exact hw.range b ⟨s, hs, hk.mem⟩
  · rw [World.map, htrims.map_eq, if_neg (by omega)]
  · have hslot := h.slot (s := 12 + level) (by unfold NSLOTS NDADDR; omega)
    rw [Inode.slot_indirect (by omega), Nat.add_sub_cancel_left] at hslot
    rw [hslot] at hne
    split at hne
    · exact absurd rfl hne
    · next hkept =>
      unfold keptOf at hkept
      exact pow_le_of_base_lt hl (by omega)

/-- **One truncation.** -/
theorem ext2Truncate_inv (hfrag : fs.fsize = fs.bsize) {env : TruncEnv} {length : ℤ} (h : FileInv fs w)
    (hclean : env.Clean fs sync length w) :
    FileInv fs (ext2Truncate fs env sync length w).2 := by
  obtain ⟨hgrow, hshrink⟩ := hclean
  unfold ext2Truncate
  split
  · exact h
  · next hneg =>
    simp only
    split
    · exact ext2Update_inv ⟨h.within.mark, h.size_le⟩
    · next hne =>
      split
      · next hlt => exact truncExtend_inv hfrag h hlt (hgrow (by omega) hlt)
      · next hge =>
        have hlen : length.toNat < w.ip.size := by omega
        have hsize := h.size_le
        have hK : fs.coveredBlocks length.toNat ≤ base fs.nindir NSLOTS :=
          coveredBlocks_le (by omega)
        have hpart := truncPartial_spec env sync h.within.sound hlen hK
        have hio := hshrink (by omega) hlen
        have hwithin := hpart.within h hlen
        generalize truncPartial fs env sync length.toNat w = r at hpart hio hwithin ⊢
        obtain ⟨e, w'⟩ := r
        cases e with
        | some e =>
          have hfail := (hpart.fails (by simp)).1
          exact ⟨hfail ▸ hwithin, hfail ▸ h.size_le⟩
        | none =>
          simp only at hio hwithin ⊢
          have hrange : ∀ s < NSLOTS, w'.ip.slot s < 2 ^ 31 := by
            intro s hs
            by_cases hzero : w'.ip.slot s = 0
            · rw [hzero]
              norm_num
            · exact hwithin.range _ ⟨s, hs, mem_root hzero⟩
          have hrel : ∃ w₁ u, ReleaseSpec fs env length.toNat w' w₁ u
              (truncRelease fs env w.ip.size length.toNat w') :=
            truncRelease_spec (fun s hs hbig => absurd (hrange s hs) (by omega))
              hwithin.sound (fun s hs => (hrange s hs).trans (by norm_num)) hK
          obtain ⟨w₁, u, hrel⟩ := hrel
          exact hrel.inv_of_io hwithin (by omega) fun s hs h12 hle =>
            ⟨hrange s hs, fun hpos => hio s hs h12 hle hpos⟩

end

/-! ### Runs -/

/-- A call on the file, with what the rest of the kernel answers during it. -/
inductive FileOp where
  | write (env : WriteEnv) (append sync : Bool) (offset : ℤ) (resid : ℕ)
  | truncate (env : TruncEnv) (sync : Bool) (length : ℤ)

/-- The state after a call. -/
def FileOp.run (fs : MExt2fs) : FileOp → World → World
  | write env append sync offset resid, w => (ext2Write fs env append sync offset resid w).2
  | truncate env sync length, w => (ext2Truncate fs env sync length w).2

/-- The call does not leave by an error after a block behind the end of the file was mapped, or with
blocks behind its new end in place. -/
def FileOp.Clean (fs : MExt2fs) : FileOp → World → Prop
  | write env append _ offset resid, w => env.Clean fs append offset resid w
  | truncate env sync length, w => env.Clean fs sync length w

theorem FileOp.run_inv {fs : MExt2fs} {w : World} (hfrag : fs.fsize = fs.bsize) (op : FileOp)
    (h : FileInv fs w) (hclean : op.Clean fs w) : FileInv fs (op.run fs w) := by
  cases op with
  | write env append sync offset resid => exact ext2Write_inv hfrag h hclean
  | truncate env sync length => exact ext2Truncate_inv hfrag h hclean

/-- **Every run of clean calls** on a volume without fragments.  From an empty file, after every call
nothing is mapped at or behind the end of the file, the kernel has not panicked, and the pointers pass the
test of `fsck`. -/
theorem file_runs (fs : MExt2fs) (hfrag : fs.fsize = fs.bsize) (w : World)
    (h : Runs.Reach (FileOp.run fs) (FileOp.Clean fs) World.EmptyFile w) : FileOk fs w :=
  (h.invariant (fun _ hempty => World.EmptyFile.inv hempty) fun op _ hinv hok =>
    op.run_inv hfrag hinv hok).ok

/-- The block `100 + lbn` is there for logical block `lbn`, and nothing fails but, perhaps,
`cluster_write`. -/
def WriteEnv.plain (clusterWrite : Option Errno) : WriteEnv where
  async := false
  inodeRead := true
  inodeWrite := true
  balloc lbn := ⟨fun _ _ => some (100 + lbn), fun _ => true, fun _ => true, fun _ => true,
    fun _ => true, true, fun _ => true⟩
  clusterWrite := clusterWrite

theorem World.empty_emptyFile (avail : ℕ → Bool) : (World.empty avail).EmptyFile :=
  ⟨rfl, fun s _ => World.empty_slot avail s, rfl⟩

/-- Two blocks are written. -/
theorem file_runs_example :
    FileOk volume4k ((FileOp.write (.plain none) false true 0 8192).run volume4k
      (World.empty fun _ => true)) :=
  file_runs volume4k rfl _ (.call _ (.start (World.empty_emptyFile _))
    (.inr (.inr (.inr (.inr (.inl (by decide +kernel)))))))

/-- A byte is written to an empty file, `cluster_write` fails, and the block stays behind the end of
the file; the next write of a byte panics. -/
theorem file_run_panics :
    ¬ ∀ w, Runs.Reach (FileOp.run volume4k) (fun _ _ => True) World.EmptyFile w →
      FileOk volume4k w := by
  intro h
  have hrun := h _ (.call (.write (.plain (some .eio)) false false 0 1)
    (.call (.write (.plain (some .eio)) false false 0 1)
      (.start (World.empty_emptyFile fun _ => true)) trivial) trivial)
  exact absurd hrun.running (by decide +kernel)

end Ext2fs
