import Ext2fs.Truncate

/-!
# Writing a regular file: `ext2_extend_alloc` and `ext2_write`

`ext2_write` allocates the blocks of its range first, then sets `i_size`, and leaves the data to
`cluster_write` of the kernel, which is a parameter here: it succeeds or fails.  `fsckRangeTest` is the
test of the pointers of an inode that `checkinode` of `fsck` makes in its first pass.
-/

namespace Ext2fs

/-- What the rest of the kernel answers during one call of `ext2_write`. -/
structure WriteEnv extends UpdateEnv where
  /-- the call of `ext2_balloc` for a logical block -/
  balloc : ℕ → BallocEnv
  /-- `cluster_write` -/
  clusterWrite : Option Errno

/-- The loop of `ext2_extend_alloc` over the `n` logical blocks from `lbn` on.  `blksize` is the fragment
size, and `BA_CLRBUF` and `IO_SYNC` are not passed. -/
def extendLoop (fs : MExt2fs) (env : ℕ → BallocEnv) : ℕ → ℕ → World → Option Errno × World
  | 0, _, w => (none, w)
  | n + 1, lbn, w =>
      match ext2Balloc fs (env lbn) false lbn fs.fsize w with
      | (some e, w) => (some e, w)
      | (none, w) => extendLoop fs env n (lbn + 1) w

theorem extendLoop_zero (fs : MExt2fs) (env : ℕ → BallocEnv) (lbn : ℕ) (w : World) :
    extendLoop fs env 0 lbn w = (none, w) := rfl

theorem extendLoop_succ (fs : MExt2fs) (env : ℕ → BallocEnv) (n lbn : ℕ) (w : World) :
    extendLoop fs env (n + 1) lbn w =
      match ext2Balloc fs (env lbn) false lbn fs.fsize w with
      | (some e, w) => (some e, w)
      | (none, w) => extendLoop fs env n (lbn + 1) w := rfl

/-- `ext2_extend_alloc`: every block the range falls in is allocated. -/
def ext2ExtendAlloc (fs : MExt2fs) (env : ℕ → BallocEnv) (offset len : ℕ) (w : World) :
    Option Errno × World :=
  if len = 0 then (none, w)
  else
    let lbn := fs.lblkno offset
    let endlbn := fs.lblkno (offset + len - 1)
    extendLoop fs env (endlbn + 1 - lbn) lbn w

/-- `ext2_write` for a regular file; `append` and `sync` are the bits `IO_APPEND` and `IO_SYNC` of
`ioflag`, `offset` and `resid` those of the `uio`. -/
def ext2Write (fs : MExt2fs) (env : WriteEnv) (append sync : Bool) (offset : ℤ) (resid : ℕ)
    (w : World) : Option Errno × World :=
  let offset : ℤ := if append then w.ip.size else offset
  if offset < 0 then (some .einval, w)
  else if resid = 0 then (none, w)
  else if (fs.maxfilesize : ℤ) < offset + resid then (some .efbig, w)
  else
    let oldEOF := w.ip.size
    let newEOF := max oldEOF (offset.toNat + resid)
    match ext2ExtendAlloc fs env.balloc offset.toNat resid w with
    | (some e, w) => (some e, w)
    | (none, w) =>
        let w := if oldEOF < newEOF then w.setSize newEOF else w
        match env.clusterWrite with
        | some e => (some e, if oldEOF < newEOF then w.setSize oldEOF else w)
        | none => if sync then ext2Update fs env.toUpdateEnv true w.mark else (none, w.mark)

/-! ### The range test of `fsck` -/

/-- `howmany(x, y)` -/
def howmany (x y : ℕ) : ℕ := (x + (y - 1)) / y

/-- The loop `for (j = 0; ndb > 0; j++) ndb /= NINDIR`: how often `ndb` can be divided before it is
0.  Each division at least halves it, so `ndb` rounds are enough. -/
def indirLevels (N : ℕ) : ℕ → ℕ → ℕ
  | 0, _ => 0
  | fuel + 1, ndb => if 0 < ndb then indirLevels N fuel (ndb / N) + 1 else 0

/-- The direct and indirect range test of `checkinode` for a regular file: the pointers the size does
not call for are 0. -/
def fsckRangeTest (fs : MExt2fs) (ip : Inode) : Bool :=
  let ndb := howmany ip.size fs.bsize
  decide (∀ j < NDADDR, ndb ≤ j → ip.db j = 0) &&
    decide (∀ j < NIADDR, indirLevels fs.nindir (ndb - NDADDR) (ndb - NDADDR) ≤ j → ip.ib j = 0)

/-- The loop counts the powers of the number of pointers that do not outgrow the block number. -/
theorem indirLevels_le_iff {N : ℕ} (hN : 1 < N) {fuel ndb : ℕ} (hfuel : ndb ≤ fuel) (j : ℕ) :
    indirLevels N fuel ndb ≤ j ↔ ndb < N ^ j := by
  induction fuel generalizing ndb j with
  | zero =>
    rw [Nat.le_zero.1 hfuel]
    simp only [indirLevels, Nat.zero_le, true_iff]
    exact pow_pos (by omega) j
  | succ fuel ih =>
    rw [indirLevels]
    split
    · next hpos =>
      have hle : ndb / N ≤ fuel := by
        have := Nat.div_lt_self hpos hN
        omega
      cases j with
      | zero =>
        simp only [Nat.le_zero, Nat.succ_ne_zero, false_iff, pow_zero]
        omega
      | succ j =>
        rw [Nat.add_le_add_iff_right, ih hle, Nat.div_lt_iff_lt_mul (by omega), pow_succ]
    · next hzero =>
      have h0 : ndb = 0 := by omega
      rw [h0]
      simp only [Nat.zero_le, true_iff]
      exact pow_pos (by omega) j

end Ext2fs
