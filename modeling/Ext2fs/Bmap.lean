import Ext2fs.Inode

/-!
# Logical to physical blocks: `ext2_getlbns` and `ext2_bmaparray`

`ext2Getlbns` computes the path of indirect blocks to a logical block, `ext2Bmaparray` walks it.

* `getlbns_path` — for a data block the path is the slot of `i_ib` followed by the base-`N` digits of
  the offset below that slot;
* `bmapWalk_eq_lookup` — walking that path finds what the block map says;
* `ext2Bmaparray_correct_iff` — the result is `fsbtodb` of the mapped block except where a direct
  pointer is shifted out of its 32 bits.
-/

namespace Ext2fs

open PtrTree

/-! ### The functions -/

/-- One step of the path to a block, `struct indir`. -/
structure Indir where
  /-- `in_lbn`: the negative logical number of the meta-block. -/
  lbn : ℤ
  /-- `in_off`: the offset in the buffer that leads on. -/
  off : ℕ
  deriving DecidableEq, Repr

/-- The loop of `ext2_getlbns` that finds the level of indirection.  Its results are `i`,
`blockcnt` and what is left of `bn`.  The product of `qblockcnt` is one of `int64_t`. -/
def getlbnsLevel (N : ℕ) : ℕ → ℤ → ℤ → Option (ℕ × ℤ × ℤ)
  | 0, _, _ => none
  | i + 1, blockcnt, bn =>
      let qblockcnt := i64 (blockcnt * N)
      if bn < qblockcnt then some (i + 1, blockcnt, bn)
      else getlbnsLevel N i qblockcnt (bn - qblockcnt)

/-- The loop of `ext2_getlbns` that stores the path; the first argument counts the iterations left.
`off` times `blockcnt` is at most `bn`, so that nothing is lost here. -/
def getlbnsPath (N : ℕ) (realbn : ℤ) (bn : ℕ) : ℕ → ℕ → ℤ → List Indir
  | 0, _, _ => []
  | k + 1, blockcnt, metalbn =>
      -- searching for a meta-data block: quit when found
      if metalbn = realbn then []
      else
        let off := bn / blockcnt % N
        ⟨metalbn, off⟩ ::
          getlbnsPath N realbn bn k (blockcnt / N) (metalbn - (-1 + off * blockcnt))

/-- `ext2_getlbns`: the array of logical block number and offset pairs leading to block `bn`; its
length is `*nump`. -/
def ext2Getlbns (N : ℕ) (realbn : ℤ) : Except Errno (List Indir) :=
  let bn := realbn.natAbs
  if bn < NDADDR then .ok []
  else match getlbnsLevel N NIADDR 1 (bn - NDADDR) with
    | none => .error .efbig
    | some (i, blockcnt, bn) =>
        let metalbn : ℤ :=
          if 0 ≤ realbn then -(realbn - bn + NIADDR - i) else -(-realbn - bn + NIADDR - i)
        .ok (⟨metalbn, NIADDR - i⟩ ::
          getlbnsPath N realbn bn.toNat (NIADDR + 1 - i) blockcnt.toNat metalbn)

/-- A buffer read: the pointers of the block at a device address, or an error. -/
abbrev Bread := ℤ → Except Errno (ℕ → ℕ)

/-- `blkptrtodb` applied to an `e2fs_daddr_t`: the shift is done in the 32 bits of the operand. -/
def MExt2fs.blkptrtodb32 (fs : MExt2fs) (b : ℕ) : ℕ := b * 2 ^ fs.bptrtodb % 2 ^ 32

/-- The number of pointers from slot `bn` on that continue a sequential run, at most `maxrun`;
`um_seqinc` is one fragment, that is one block. -/
def seqRun (bap : ℕ → ℕ) (limit : ℕ) : ℕ → ℕ → ℕ
  | 0, _ => 0
  | maxrun + 1, bn =>
      if bn < limit ∧ bap bn = bap (bn - 1) + 1 then seqRun bap limit maxrun (bn + 1) + 1 else 0

/-- The loop of `ext2_bmaparray` over the indirect blocks.  `runp` carries `maxrun` when the caller
asks for a run; the results are the address found and the run. -/
def bmapWalk (fs : MExt2fs) (bread : Bread) (runp : Option ℕ) (bn : ℤ) :
    List Indir → ℕ → ℕ → Except Errno (ℕ × ℕ)
  | [], daddr, run => .ok (daddr, run)
  | ap :: rest, daddr, run =>
      -- a hole in the path, or the meta-block the caller asked for
      if daddr = 0 ∨ ap.lbn = bn then .ok (daddr, run)
      else match bread (fs.fsbtodb daddr) with
        | .error e => .error e
        | .ok bap =>
            let daddr := bap ap.off
            let run := match runp with
              | some maxrun =>
                  if rest.isEmpty ∧ daddr ≠ 0 then seqRun bap fs.nindir maxrun (ap.off + 1) else run
              | none => run
            bmapWalk fs bread runp bn rest daddr run

/-- `ext2_bmaparray`: the device block of logical block `bn`, `-1` for a hole, and the length of the
sequential run behind it. -/
def ext2Bmaparray (fs : MExt2fs) (bread : Bread) (ip : Inode) (runp : Option ℕ) (bn : ℤ) :
    Except Errno (ℤ × ℕ) :=
  match ext2Getlbns fs.nindir bn with
  | .error e => .error e
  | .ok [] =>
      let bnp := fs.blkptrtodb32 (ip.db bn.toNat)
      if bnp = 0 then .ok (-1, 0)
      else .ok (bnp, match runp with
        | some maxrun => seqRun ip.db NDADDR maxrun (bn.toNat + 1)
        | none => 0)
  | .ok (ap :: path) =>
      match bmapWalk fs bread runp bn path (ip.ib ap.off) 0 with
      | .error e => .error e
      | .ok (daddr, run) => .ok (if fs.fsbtodb daddr = 0 then -1 else fs.fsbtodb daddr, run)

/-! ### The path of a data block -/

/-- The digits of an offset below a tree of height `k`, most significant first. -/
def digits (N : ℕ) : ℕ → ℕ → List ℕ
  | 0, _ => []
  | k + 1, off => off / N ^ k :: digits N k (off % N ^ k)

/-- The stored offsets are the digits of the offset: the meta-block numbers stay negative, so the
loop never takes its early exit. -/
theorem getlbnsPath_offs {N : ℕ} (hN : 0 < N) {realbn : ℤ} (hreal : 0 ≤ realbn) (bn : ℕ) :
    ∀ (k : ℕ) (metalbn : ℤ), metalbn + k < 0 →
      (getlbnsPath N realbn bn k (N ^ (k - 1)) metalbn).map Indir.off
        = digits N k (bn % N ^ k) := by
  intro k
  induction k with
  | zero => intro metalbn _; rfl
  | succ k ih =>
    intro metalbn hneg
    have hne : metalbn ≠ realbn := by push_cast at hneg; omega
    have hoff : bn / N ^ k % N = bn % N ^ (k + 1) / N ^ k := by
      rw [pow_succ, Nat.mod_mul_right_div_self]
    have hrest : bn % N ^ (k + 1) % N ^ k = bn % N ^ k :=
      Nat.mod_mod_of_dvd _ (pow_dvd_pow N (Nat.le_succ k))
    have hstep : metalbn - (-1 + ((bn / N ^ k % N : ℕ) : ℤ) * ((N ^ k : ℕ) : ℤ)) + k < 0 := by
      have h0 : (0 : ℤ) ≤ ((bn / N ^ k % N : ℕ) : ℤ) * ((N ^ k : ℕ) : ℤ) := by positivity
      push_cast at hneg h0 ⊢
      omega
    rw [getlbnsPath, if_neg hne, Nat.add_sub_cancel]
    simp only [List.map_cons, digits, hoff, hrest, List.cons.injEq, true_and]
    rw [← hoff]
    cases k with
    | zero => rfl
    | succ k =>
      rw [pow_succ, Nat.mul_div_cancel _ hN, ← pow_succ]
      exact ih _ hstep

theorem getlbnsPath_lbn_neg {N : ℕ} {realbn : ℤ} (bn : ℕ) :
    ∀ (k blockcnt : ℕ) (metalbn : ℤ), metalbn + k < 0 →
      ∀ ap ∈ getlbnsPath N realbn bn k blockcnt metalbn, ap.lbn < 0 := by
  intro k
  induction k with
  | zero => intro _ _ _ ap hap; simp [getlbnsPath] at hap
  | succ k ih =>
    intro blockcnt metalbn hneg ap hap
    rw [getlbnsPath] at hap
    split at hap
    · simp at hap
    · rcases List.mem_cons.1 hap with rfl | hap
      · push_cast at hneg
        show metalbn < 0
        omega
      · refine ih _ _ ?_ ap hap
        have h0 : (0 : ℤ) ≤ ((bn / blockcnt % N : ℕ) : ℤ) * (blockcnt : ℤ) := by positivity
        push_cast at hneg h0 ⊢
        omega

/-- What `ext2Getlbns` answers for a data block, in terms of where the block lies: nothing for a
direct block, `EFBIG` past the last tree, and else the slot of `i_ib` with the digits of the offset. -/
theorem getlbns_direct {N lbn : ℕ} (h : lbn < 12) : ext2Getlbns N lbn = .ok [] := by
  simp [ext2Getlbns, NDADDR, h]

/-- With fewer than `2 ^ 21` pointers in a block the loop computes the sizes of the three trees. -/
theorem i64_pow {N k : ℕ} (hN : N < 2 ^ 21) (hk : k ≤ 3) : i64 ((N : ℤ) ^ k) = (N : ℤ) ^ k := by
  have hlt : N ^ k < 2 ^ 63 :=
    calc N ^ k ≤ (2 ^ 21 - 1) ^ k := Nat.pow_le_pow_left (by omega) k
      _ ≤ (2 ^ 21 - 1) ^ 3 := Nat.pow_le_pow_right (by omega) hk
      _ < 2 ^ 63 := by norm_num
  have hcast : ((N ^ k : ℕ) : ℤ) = (N : ℤ) ^ k := by push_cast; rfl
  rw [← hcast]
  exact i64_of_lt (by omega) (by exact_mod_cast hlt)

/-- **The level of a block**, where no product overflows. -/
theorem getlbnsLevel_eq {N : ℕ} (hN : N < 2 ^ 21) (bn : ℤ) :
    getlbnsLevel N NIADDR 1 bn =
      if bn < N then some (3, (1 : ℤ), bn)
      else if bn - N < (N : ℤ) ^ 2 then some (2, (N : ℤ), bn - N)
      else if bn - N - (N : ℤ) ^ 2 < (N : ℤ) ^ 3 then some (1, (N : ℤ) ^ 2, bn - N - (N : ℤ) ^ 2)
      else none := by
  have h1 : i64 ((1 : ℤ) * N) = N := by
    rw [one_mul]
    simpa using i64_pow hN (k := 1) (by decide)
  have h2 : i64 ((N : ℤ) * N) = (N : ℤ) ^ 2 := by
    rw [← pow_two]
    exact i64_pow hN (by decide)
  have h3 : i64 ((N : ℤ) ^ 2 * N) = (N : ℤ) ^ 3 := by
    rw [← pow_succ]
    exact i64_pow hN (by decide)
  simp only [NIADDR, getlbnsLevel, h1, h2, h3]

theorem getlbns_efbig {N lbn : ℕ} (hN : N < 2 ^ 21) (h : 12 + N + N ^ 2 + N ^ 3 ≤ lbn) :
    ext2Getlbns N lbn = .error .efbig := by
  have h' : (12 : ℤ) + N + (N : ℤ) ^ 2 + (N : ℤ) ^ 3 ≤ lbn := by exact_mod_cast h
  have h2 : (0 : ℤ) ≤ (N : ℤ) ^ 2 := by positivity
  have h3 : (0 : ℤ) ≤ (N : ℤ) ^ 3 := by positivity
  have hlev : getlbnsLevel N NIADDR 1 ((lbn : ℤ) - (NDADDR : ℕ)) = none := by
    rw [getlbnsLevel_eq hN]
    unfold NDADDR
    rw [if_neg (by omega), if_neg (by omega), if_neg (by omega)]
  simp only [ext2Getlbns, Int.natAbs_natCast, hlev]
  rw [if_neg (by unfold NDADDR; omega)]

/-- **The head of a path**, for a data block and for a meta-block: the number of the first meta-block
depends on the level only. -/
theorem getlbns_abs {N r off : ℕ} {realbn : ℤ} (hN : N < 2 ^ 21)
    (hl : locate N realbn.natAbs = some (r, off)) (hr : 12 ≤ r) :
    ext2Getlbns N realbn = .ok (⟨-((base N r : ℤ) + height r - 1), r - 12⟩ ::
      getlbnsPath N realbn off (height r) (N ^ (height r - 1))
        (-((base N r : ℤ) + height r - 1))) := by
  obtain ⟨hrlt, hoff, hlbn⟩ := locate_eq_some.1 hl
  -- the level loop leaves with `i = 4 - height r`, `blockcnt = N ^ (height r - 1)` and `bn = off`
  have key : ∀ i, i + height r = 4 → ¬realbn.natAbs < NDADDR →
      getlbnsLevel N NIADDR 1 ((realbn.natAbs : ℤ) - (NDADDR : ℕ)) =
        some (i, (N : ℤ) ^ (height r - 1), (off : ℤ)) →
      ext2Getlbns N realbn = .ok (⟨-((base N r : ℤ) + height r - 1), r - 12⟩ ::
        getlbnsPath N realbn off (height r) (N ^ (height r - 1))
          (-((base N r : ℤ) + height r - 1))) := by
    intro i hi hge hlev
    have hk : NIADDR + 1 - i = height r := by
      unfold NIADDR
      omega
    have hslot : NIADDR - i = r - 12 := by
      unfold height NDADDR at hi
      unfold NIADDR
      omega
    have hmeta : (if 0 ≤ realbn then -(realbn - off + NIADDR - i) else -(-realbn - off + NIADDR - i)) =
        -((base N r : ℤ) + height r - 1) := by
      unfold NIADDR
      split <;> omega
    have hpow : ((N : ℤ) ^ (height r - 1)).toNat = N ^ (height r - 1) := by
      rw [← Nat.cast_pow, Int.toNat_natCast]
    unfold ext2Getlbns
    simp only [if_neg hge, hlev, hk, hmeta, hslot, hpow, Int.toNat_natCast]
  rw [getlbnsLevel_eq hN] at key
  unfold NDADDR at key
  rcases slot_cases hrlt with h | rfl | rfl | rfl
  · exact absurd h (by omega)
  · simp only [base_single, height_single, pow_one] at hlbn hoff
    refine key 3 rfl (by omega) ?_
    rw [if_pos (by omega)]
    simp only [height_single, Nat.sub_self, pow_zero, Option.some.injEq, Prod.mk.injEq, true_and]
    omega
  · simp only [base_double, height_double] at hlbn hoff
    have hoff' : (off : ℤ) < (N : ℤ) ^ 2 := by exact_mod_cast hoff
    refine key 2 rfl (by omega) ?_
    rw [if_neg (by omega), if_pos (by omega)]
    simp only [height_double, Nat.add_one_sub_one, pow_one, Option.some.injEq, Prod.mk.injEq,
      true_and]
    omega
  · simp only [base_triple, height_triple] at hlbn hoff
    have hoff' : (off : ℤ) < (N : ℤ) ^ 3 := by exact_mod_cast hoff
    have hlbn' : (realbn.natAbs : ℤ) = 12 + N + (N : ℤ) ^ 2 + off := by exact_mod_cast hlbn
    have hsq : (0 : ℤ) ≤ (N : ℤ) ^ 2 := by positivity
    refine key 1 rfl (by omega) ?_
    rw [if_neg (by omega), if_neg (by omega), if_pos (by omega)]
    simp only [height_triple, Nat.add_one_sub_one, Option.some.injEq, Prod.mk.injEq, true_and]
    omega

/-- **The path of a data block.**  Below slot `12 + level` the path is the slot itself and one entry
for each digit of the offset. -/
theorem getlbns_path {N lbn r off : ℕ} (hN : 0 < N) (hN' : N < 2 ^ 21)
    (hl : locate N lbn = some (r, off))
    (hr : 12 ≤ r) :
    ∃ ap path, ext2Getlbns N lbn = .ok (ap :: path) ∧ ap.off = r - 12 ∧
      path.map Indir.off = digits N (height r) off ∧ ∀ a ∈ path, a.lbn < 0 := by
  obtain ⟨hrlt, hoff, -⟩ := locate_eq_some.1 hl
  have hneg : -((base N r : ℤ) + height r - 1) + height r < 0 := by
    have h12 : 12 ≤ base N r := by
      rcases slot_cases hrlt with h | rfl | rfl | rfl
      · omega
      · simp
      · simp
      · simp only [base_triple]
        omega
    omega
  refine ⟨_, _, @getlbns_abs N r off lbn hN' (by rwa [Int.natAbs_natCast]) hr, rfl, ?_, ?_⟩
  · rw [getlbnsPath_offs hN (Int.natCast_nonneg _) off _ _ hneg, Nat.mod_eq_of_lt hoff]
  · exact getlbnsPath_lbn_neg off _ _ _ hneg

/-! ### The walk finds what the block map says -/

/-- A pointer in the inode or in an indirect block of it is `b`, and leads to data over `k` indirect
blocks. -/
inductive Inode.Above (fs : MExt2fs) (st : Store) (ip : Inode) : ℕ → ℕ → Prop
  | root {i : ℕ} (hi : i < NIADDR) : ip.Above fs st (i + 1) (ip.ib i)
  | child {k b i : ℕ} (h : ip.Above fs st (k + 1) b) (hb : b ≠ 0) (hi : i < fs.nindir) :
      ip.Above fs st k (st b i)

/-- The indirect blocks of the inode can be read. -/
def Inode.Readable (fs : MExt2fs) (bread : Bread) (st : Store) (ip : Inode) : Prop :=
  ∀ k b, ip.Above fs st (k + 1) b → b ≠ 0 → bread (fs.fsbtodb b) = .ok (st b)

/-- Walking a path whose offsets are the digits of `off` finds the block at `off`. -/
theorem bmapWalk_eq_lookup {fs : MExt2fs} {bread : Bread} {st : Store} {ip : Inode}
    (runp : Option ℕ) {bn : ℤ} (hbn : 0 ≤ bn) (hread : ip.Readable fs bread st) :
    ∀ (k : ℕ) (path : List Indir) (off daddr run : ℕ),
      path.map Indir.off = digits fs.nindir k off → (∀ a ∈ path, a.lbn < 0) →
      off < fs.nindir ^ k → ip.Above fs st k daddr →
      ∃ run', bmapWalk fs bread runp bn path daddr run
        = .ok (lookup fs.nindir st k daddr off, run') := by
  intro k
  induction k with
  | zero =>
    intro path off daddr run hdig _ _ _
    have hnil : path = [] := by simpa [digits] using hdig
    exact ⟨run, by simp [hnil, bmapWalk, lookup]⟩
  | succ k ih =>
    intro path off daddr run hdig hneg hoff hlt
    cases path with
    | nil => simp [digits] at hdig
    | cons ap rest =>
      simp only [List.map_cons, digits, List.cons.injEq] at hdig
      have hap : ap.lbn ≠ bn := by
        have := hneg ap List.mem_cons_self
        omega
      by_cases hd : daddr = 0
      · exact ⟨run, by simp [bmapWalk, hd]⟩
      · have hcond : ¬ (daddr = 0 ∨ ap.lbn = bn) := by simp [hd, hap]
        rw [bmapWalk, if_neg hcond, hread k daddr hlt hd, lookup, if_neg hd, ← hdig.1]
        have hidx : ap.off < fs.nindir := hdig.1 ▸ div_lt_of_lt_pow fs.nindir_pos hoff
        exact ih rest _ _ _ hdig.2 (fun a ha => hneg a (List.mem_cons_of_mem _ ha))
          (Nat.mod_lt _ (pow_pos fs.nindir_pos k)) (.child hlt hd hidx)

/-- What the walk finds it also finds when more blocks can be read. -/
theorem bmapWalk_mono {fs : MExt2fs} {bread bread' : Bread} {runp : Option ℕ} {bn : ℤ}
    (hle : ∀ a bap, bread a = .ok bap → bread' a = .ok bap) {path : List Indir} {daddr run : ℕ}
    {r : ℕ × ℕ} (h : bmapWalk fs bread runp bn path daddr run = .ok r) :
    bmapWalk fs bread' runp bn path daddr run = .ok r := by
  induction path generalizing daddr run with
  | nil => exact h
  | cons ap rest ih =>
    rw [bmapWalk] at h ⊢
    split at h
    · next hstop => rwa [if_pos hstop]
    · next hgo =>
      rw [if_neg hgo]
      cases hread : bread (fs.fsbtodb daddr) with
      | error e => rw [hread] at h; exact absurd h (by simp)
      | ok bap =>
        rw [hread] at h
        rw [hle _ _ hread]
        exact ih h

theorem ext2Bmaparray_mono {fs : MExt2fs} {bread bread' : Bread} {ip : Inode} {runp : Option ℕ}
    {bn : ℤ} (hle : ∀ a bap, bread a = .ok bap → bread' a = .ok bap) {r : ℤ × ℕ}
    (h : ext2Bmaparray fs bread ip runp bn = .ok r) : ext2Bmaparray fs bread' ip runp bn = .ok r := by
  unfold ext2Bmaparray at h ⊢
  cases hget : ext2Getlbns fs.nindir bn with
  | error e => rw [hget] at h; exact absurd h (by simp)
  | ok path =>
    rw [hget] at h
    cases path with
    | nil => exact h
    | cons ap path =>
      simp only at h ⊢
      cases hwalk : bmapWalk fs bread runp bn path (ip.ib ap.off) 0 with
      | error e => rw [hwalk] at h; exact absurd h (by simp)
      | ok d =>
        rw [hwalk] at h
        rw [bmapWalk_mono hle hwalk]
        exact h

/-! ### When `ext2_bmaparray` is right -/

/-- What a caller of `ext2_bmaparray` relies on: the device address of the mapped block, `-1`
exactly for a hole, and `EFBIG` past the last tree. -/
def BmapCorrect (fs : MExt2fs) (bread : Bread) (st : Store) (ip : Inode) (runp : Option ℕ)
    (lbn : ℕ) : Prop :=
  if lbn < 12 + fs.nindir + fs.nindir ^ 2 + fs.nindir ^ 3 then
    (ext2Bmaparray fs bread ip runp lbn).map Prod.fst
      = .ok (if blockMap fs.nindir st ip lbn = 0 then -1
          else fs.fsbtodb (blockMap fs.nindir st ip lbn))
  else ext2Bmaparray fs bread ip runp lbn = .error .efbig

theorem bmapCorrect_direct {fs : MExt2fs} {bread : Bread} {st : Store} {ip : Inode}
    {runp : Option ℕ} {lbn : ℕ} (h : lbn < 12) :
    BmapCorrect fs bread st ip runp lbn ↔ ip.db lbn * 2 ^ fs.bptrtodb < 2 ^ 32 := by
  have hl : locate fs.nindir lbn = some (lbn, 0) := by simp [locate, NDADDR, h]
  have hmap : blockMap fs.nindir st ip lbn = ip.db lbn := by
    rw [blockMap_of_locate hl, height_direct h]
    simp [lookup, Inode.slot, NDADDR, h]
  have hcode : (ext2Bmaparray fs bread ip runp lbn).map Prod.fst
      = .ok (if fs.blkptrtodb32 (ip.db lbn) = 0 then -1 else (fs.blkptrtodb32 (ip.db lbn) : ℤ)) := by
    simp only [ext2Bmaparray, getlbns_direct h, Int.toNat_natCast]
    split <;> rfl
  rw [BmapCorrect, if_pos (by omega), hcode, hmap]
  unfold MExt2fs.blkptrtodb32 MExt2fs.fsbtodb
  have hpos : 0 < 2 ^ fs.bptrtodb := by positivity
  have hcast : ((ip.db lbn : ℕ) : ℤ) * 2 ^ fs.bptrtodb = ((ip.db lbn * 2 ^ fs.bptrtodb : ℕ) : ℤ) := by
    push_cast
    ring
  rw [hcast]
  have hzero : ip.db lbn = 0 ↔ ip.db lbn * 2 ^ fs.bptrtodb = 0 := by simp
  simp only [hzero]
  generalize ip.db lbn * 2 ^ fs.bptrtodb = x
  constructor
  · intro heq
    by_contra hx
    split_ifs at heq with h1 h2 h2 <;> simp only [Except.ok.injEq] at heq <;> omega
  · intro hx
    rw [Nat.mod_eq_of_lt hx]

theorem bmapCorrect_indirect {fs : MExt2fs} {bread : Bread} {st : Store} {ip : Inode}
    (runp : Option ℕ) {lbn : ℕ} (h : 12 ≤ lbn) (hread : ip.Readable fs bread st) :
    BmapCorrect fs bread st ip runp lbn := by
  unfold BmapCorrect
  split
  · next hlt =>
    cases hl : locate fs.nindir lbn with
    | none => exact absurd (locate_eq_none.1 hl) (by omega)
    | some ro =>
      obtain ⟨r, off⟩ := ro
      obtain ⟨hr, hoff, hlbn⟩ := locate_eq_some.1 hl
      have hr12 : 12 ≤ r := by
        by_contra hc
        have hc' : r < 12 := by omega
        simp only [height_direct hc', pow_zero, base_direct hc'] at hoff hlbn
        omega
      obtain ⟨ap, path, hget, hap, hdig, hneg⟩ := getlbns_path fs.nindir_pos fs.nindir_lt hl hr12
      have hroot : ip.Above fs st (height r) (ip.ib ap.off) := by
        have hslot := slot_cases hr
        have hheight : height r = ap.off + 1 := by
          unfold height NDADDR
          omega
        rw [hheight]
        exact .root (by unfold NIADDR; omega)
      obtain ⟨run, hwalk⟩ := bmapWalk_eq_lookup runp (Int.natCast_nonneg lbn) hread
        (height r) path off (ip.ib ap.off) 0 hdig hneg hoff hroot
      have hmap : blockMap fs.nindir st ip lbn
          = lookup fs.nindir st (height r) (ip.ib ap.off) off := by
        rw [blockMap_of_locate hl, hap]
        simp [Inode.slot, NDADDR, show ¬ r < 12 by omega]
      simp only [ext2Bmaparray, hget, hwalk, hmap, Except.map, MExt2fs.fsbtodb_eq_zero,
        Nat.cast_eq_zero]
  · next hge =>
    have hge' : 12 + fs.nindir + fs.nindir ^ 2 + fs.nindir ^ 3 ≤ lbn := by omega
    simp only [ext2Bmaparray, getlbns_efbig fs.nindir_lt hge']

/-- **When `ext2_bmaparray` is right.**  On an inode whose indirect blocks can be read, the result is
right for every logical block except a direct one whose pointer loses bits in the 32-bit shift. -/
theorem ext2Bmaparray_correct_iff (fs : MExt2fs) (bread : Bread) (st : Store) (ip : Inode)
    (runp : Option ℕ) (lbn : ℕ) (hread : ip.Readable fs bread st) :
    BmapCorrect fs bread st ip runp lbn ↔
      (lbn < 12 → ip.db lbn * 2 ^ fs.bptrtodb < 2 ^ 32) := by
  by_cases h : lbn < 12
  · rw [bmapCorrect_direct h]
    exact ⟨fun hx _ => hx, fun hx => hx h⟩
  · exact ⟨fun _ hlt => absurd hlt h,
      fun _ => bmapCorrect_indirect runp (by omega) hread⟩

/-- An inode with one indirect block, at block 100; no other block can be read. -/
theorem ext2Bmaparray_correct_indirect_example :
    BmapCorrect volume4k (fun d => if d = 800 then .ok fun i => 200 + i else .error .eio)
      (fun b i => if b = 100 then 200 + i else 0)
      { emptyInode with ib := fun i => if i = 0 then 100 else 0 } none 13 := by
  refine (ext2Bmaparray_correct_iff volume4k _ _ _ none 13 fun k b h hb => ?_).2 (by decide)
  have hone : ∀ {k b}, Inode.Above volume4k (fun b i => if b = 100 then 200 + i else 0)
      { emptyInode with ib := fun i => if i = 0 then 100 else 0 } k b → b ≠ 0 → k = 0 ∨ k = 1 ∧ b = 100 := by
    intro k b h hb
    induction h with
    | @root i hi =>
      by_cases hi0 : i = 0
      · exact .inr ⟨by rw [hi0], by rw [hi0]; rfl⟩
      · exact absurd (if_neg hi0) hb
    | child h hb' hi ih =>
      rcases ih hb' with hk | ⟨hk, -⟩
      · cases hk
      · exact .inl (by omega)
  rcases hone h hb with hk | ⟨-, rfl⟩
  · cases hk
  · rfl

/-- A direct pointer to block `2 ^ 29` of a volume with 4 KiB blocks comes back as a hole. -/
theorem ext2Bmaparray_direct_overflow :
    ¬ BmapCorrect volume4k (fun _ => .ok fun _ => 0) (fun _ _ => 0)
      { emptyInode with db := fun i => if i = 0 then 2 ^ 29 else 0 } none 0 := by
  rw [bmapCorrect_direct (by decide)]
  decide

end Ext2fs
