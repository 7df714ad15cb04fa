import Ext2fs.Bitmap
import Ext2fs.Lib.MaxRuns

/-!
# The cluster summary of a group

`ext2_clusteracct` counts, for each length up to `e2fs_contigsumsize`, the maximal runs of free blocks in
a group.  The first call counts all runs of the bitmap; every call then accounts for the run of its block
as if the counts were those from before the change.  The bitmap handed in has already been changed.

* `acct_error` — **a later call keeps the error** of the counts;
* `first_error` — the first call counts its block twice;
* `acct_right_iff` — over a run of calls the counts are right if and only if the first block is at the
  end of a free run that stays long without it.
-/

namespace Ext2fs

open MaxRuns

/-! ### The function -/

/-- `struct csum` of a group, with its entry of `e2fs_maxcluster`. -/
structure Csum where
  /-- `cs_init` -/
  init : Bool
  /-- `cs_sum` -/
  sum : ℕ → ℤ
  maxcluster : ℕ

/-- `sump[k] += cnt` -/
def bump (sum : ℕ → ℤ) (k : ℕ) (cnt : ℤ) : ℕ → ℤ := Function.update sum k (sum k + cnt)

/-- A length, at most `e2fs_contigsumsize`. -/
def cap (contigsumsize run : ℕ) : ℕ := if contigsumsize < run then contigsumsize else run

/-- The end of a run in the loop that counts them. -/
def countRun (contigsumsize run : ℕ) (sum : ℕ → ℤ) : ℕ → ℤ :=
  if run ≠ 0 then bump sum (cap contigsumsize run) 1 else sum

/-- The loop that initializes the summary: `rounds` bits from the bit `i` on. -/
def initLoop (map : Bitmap) (contigsumsize : ℕ) :
    ℕ → ℕ → BitCursor → ℕ → (ℕ → ℤ) → ℕ × (ℕ → ℤ)
  | 0, _, _, run, sum => (run, sum)
  | rounds + 1, i, cur, run, sum =>
      if cur.taken map = false then
        initLoop map contigsumsize rounds (i + 1) (cur.next i) (run + 1) sum
      else
        initLoop map contigsumsize rounds (i + 1) (cur.next i) 0 (countRun contigsumsize run sum)

/-- The forward scan: the free blocks among `rounds` of them from `i` on. -/
def forwLoop (map : Bitmap) : ℕ → ℕ → BitCursor → ℕ
  | 0, _, _ => 0
  | rounds + 1, i, cur =>
      if cur.taken map then 0 else forwLoop map rounds (i + 1) (cur.next i) + 1

/-- The backward scan: the free blocks among `rounds` of them from `i` down. -/
def backLoop (map : Bitmap) : ℕ → ℕ → BitCursor → ℕ
  | 0, _, _ => 0
  | rounds + 1, i, cur =>
      if cur.taken map then 0 else backLoop map rounds (i - 1) (cur.prev i) + 1

/-- `forw` -/
def forward (fpg contigsumsize : ℕ) (map : Bitmap) (bno : ℕ) : ℕ :=
  let start := bno + 1
  let stop := if fpg < start + contigsumsize then fpg else start + contigsumsize
  forwLoop map (stop - start) start (BitCursor.start start)

/-- `back`; the scan of block 0 makes no round, so its byte and mask are not used. -/
def backward (contigsumsize : ℕ) (map : Bitmap) (bno : ℕ) : ℕ :=
  let start : ℤ := bno - 1
  let stop : ℤ := if start - contigsumsize < 0 then -1 else start - contigsumsize
  backLoop map (start - stop).toNat start.toNat (BitCursor.start start.toNat)

/-- The loop for `e2fs_maxcluster`. -/
def largest (sum : ℕ → ℤ) : ℕ → ℕ
  | 0 => 0
  | i + 1 => if 0 < sum (i + 1) then i + 1 else largest sum i

/-- The summary when `ext2_clusteracct` has initialized it. -/
def initialized (fpg contigsumsize : ℕ) (map : Bitmap) (cs : Csum) : ℕ → ℤ :=
  if cs.init = false then
    let r := initLoop map contigsumsize fpg 0 (BitCursor.start 0) 0 cs.sum
    countRun contigsumsize r.1 r.2
  else cs.sum

/-- The old cluster and the possibly new ones before and after it. -/
def account (contigsumsize back forw : ℕ) (cnt : ℤ) (sum : ℕ → ℤ) : ℕ → ℤ :=
  let sum := bump sum (cap contigsumsize (back + forw + 1)) cnt
  let sum := if 0 < back then bump sum back (-cnt) else sum
  if 0 < forw then bump sum forw (-cnt) else sum

/-- `ext2_clusteracct` -/
def ext2Clusteracct (fpg contigsumsize : ℕ) (map : Bitmap) (bno : ℕ) (cnt : ℤ) (cs : Csum) : Csum :=
  let sum := initialized fpg contigsumsize map cs
  if contigsumsize = 0 then { cs with init := true, sum := sum }
  else
    let sum := account contigsumsize (backward contigsumsize map bno)
      (forward fpg contigsumsize map bno) cnt sum
    { init := true, sum := sum, maxcluster := largest sum contigsumsize }

/-! ### The scans -/

section Scans

variable {map : Bitmap} {fpg c i bno rounds : ℕ}

theorem forwLoop_eq : forwLoop map rounds i (BitCursor.start i) = ahead map.isclr i rounds := by
  induction rounds generalizing i with
  | zero => rfl
  | succ rounds ih =>
    rw [forwLoop, ahead, BitCursor.taken_start, BitCursor.next_start, ih]
    cases map.isclr i <;> simp

theorem backLoop_eq (h : rounds ≤ i + 1) : backLoop map rounds i (BitCursor.start i) =
    min (behind map.isclr (i + 1)) rounds := by
  induction rounds generalizing i with
  | zero => simp [backLoop]
  | succ rounds ih =>
    rw [backLoop, behind, BitCursor.taken_start]
    cases map.isclr i with
    | false => simp
    | true =>
      rcases i with - | i
      · obtain rfl : rounds = 0 := by omega
        simp [backLoop, behind]
      · rw [BitCursor.prev_start, Nat.add_sub_cancel, ih (by omega)]
        simp

theorem ahead_cap (p : ℕ → Bool) (b k c : ℕ) : ahead p b (min k c) = min (ahead p b k) c := by
  induction k generalizing b c with
  | zero => simp [ahead]
  | succ k ih =>
    rcases c with - | c
    · simp [ahead]
    · rw [Nat.succ_min_succ, ahead, ahead, ih]
      split <;> simp

theorem forward_eq (fpg c : ℕ) (map : Bitmap) (bno : ℕ) :
    forward fpg c map bno = min (ahead map.isclr (bno + 1) (fpg - (bno + 1))) c := by
  rw [← ahead_cap, ← forwLoop_eq, forward]
  congr 1
  split <;> omega

theorem backward_eq (c : ℕ) (map : Bitmap) (bno : ℕ) :
    backward c map bno = min (behind map.isclr bno) c := by
  rcases bno with - | b
  · have hstop : (-1 : ℤ) < c := by omega
    simp [backward, backLoop, behind, hstop]
  · have hle := (behind_spec map.isclr (b + 1)).le
    rw [backward]
    simp only [Nat.cast_add, Nat.cast_one, add_sub_cancel_right, Int.toNat_natCast]
    rw [backLoop_eq (by split <;> omega)]
    split <;> omega

@[simp] theorem cap_eq (c run : ℕ) : cap c run = min run c := by
  unfold cap
  split <;> omega

end Scans

/-! ### What a call does to the counts -/

/-- The weight that counts the runs of the length `k`. -/
def ofLength (contigsumsize k x : ℕ) : ℤ := if min x contigsumsize = k then 1 else 0

/-- The number of maximal runs of free blocks in the group whose length, capped at
`e2fs_contigsumsize`, is `k`. -/
def freeRuns (fpg contigsumsize : ℕ) (map : Bitmap) (k : ℕ) : ℕ :=
  ((runs map.isclr fpg).filter fun r => min (r.2 - r.1) contigsumsize = k).card

/-- How one more free block, with `x` free blocks before it and `y` after it, changes the number of
runs of the length `k`. -/
def change (contigsumsize x y k : ℕ) : ℤ :=
  ofLength contigsumsize k (x + y + 1) - (if 0 < x then ofLength contigsumsize k x else 0) -
    if 0 < y then ofLength contigsumsize k y else 0

section Counts

variable {map : Bitmap} {fpg c i k run rounds bno : ℕ} {sum : ℕ → ℤ} {cnt : ℤ}

theorem freeRuns_eq (fpg c : ℕ) (map : Bitmap) (k : ℕ) :
    (freeRuns fpg c map k : ℤ) = weight map.isclr fpg (ofLength c k) := by
  rw [freeRuns, weight, Finset.natCast_card_filter]
  rfl

theorem bump_apply (sum : ℕ → ℤ) (j : ℕ) (cnt : ℤ) (k : ℕ) :
    bump sum j cnt k = sum k + cnt * if j = k then 1 else 0 := by
  unfold bump
  rcases eq_or_ne k j with rfl | hne
  · simp
  · simp [Function.update_of_ne hne, hne.symm]

theorem countRun_eq (c run : ℕ) (sum : ℕ → ℤ) (k : ℕ) :
    countRun c run sum k = sum k + if 0 < run then ofLength c k run else 0 := by
  unfold countRun
  rcases Nat.eq_zero_or_pos run with rfl | hpos
  · simp
  · simp [hpos, hpos.ne', bump_apply, ofLength]

/-- The loop that initializes the summary has counted the runs up to its bit; `run` is the last of
them. -/
theorem initLoop_spec (h : run = behind map.isclr i) :
    (initLoop map c rounds i (BitCursor.start i) run sum).1 = behind map.isclr (i + rounds) ∧
      countRun c (initLoop map c rounds i (BitCursor.start i) run sum).1
          (initLoop map c rounds i (BitCursor.start i) run sum).2 k =
        countRun c run sum k + weight map.isclr (i + rounds) (ofLength c k) -
          weight map.isclr i (ofLength c k) := by
  induction rounds generalizing i run sum with
  | zero => exact ⟨h, by simp [initLoop]⟩
  | succ rounds ih =>
    rw [initLoop, BitCursor.taken_start, BitCursor.next_start, show i + (rounds + 1) = i + 1 + rounds by omega]
    cases hfree : map.isclr i with
    | true =>
      obtain ⟨hrun, hsum⟩ := @ih (i + 1) (run + 1) sum (by rw [behind, if_pos hfree, h])
      rw [if_pos (by simp)]
      refine ⟨hrun, ?_⟩
      rw [hsum, weight_succ hfree, countRun_eq, countRun_eq, ← h, if_pos (Nat.succ_pos _)]
      omega
    | false =>
      obtain ⟨hrun, hsum⟩ := @ih (i + 1) 0 (countRun c run sum) (by rw [behind, hfree]; rfl)
      rw [if_neg (by simp)]
      refine ⟨hrun, ?_⟩
      rw [hsum, weight_succ_of_not hfree, countRun_eq c 0, if_neg (by omega)]
      omega

/-- The summary is initialized to the runs of the bitmap as it is handed in. -/
theorem initialized_fresh {cs : Csum} (h : cs.init = false) (h₀ : cs.sum = 0) (k : ℕ) :
    initialized fpg c map cs k = weight map.isclr fpg (ofLength c k) := by
  have hspec := (@initLoop_spec map c 0 k 0 fpg cs.sum rfl).2
  rw [initialized, if_pos h]
  rw [countRun_eq c 0, Nat.zero_add, weight_zero, h₀] at hspec
  simpa [h₀] using hspec

theorem account_eq (hc : 0 < c) (x y : ℕ) (cnt : ℤ) (sum : ℕ → ℤ) (k : ℕ) :
    account c (min x c) (min y c) cnt sum k = sum k + cnt * change c x y k := by
  have htop : min (min x c + min y c + 1) c = min (x + y + 1) c := by omega
  have hx : 0 < min x c ↔ 0 < x := by omega
  have hy : 0 < min y c ↔ 0 < y := by omega
  simp only [account, change, ofLength, cap_eq, htop, hx, hy]
  split <;> split <;> simp only [bump_apply] <;> ring

/-- What the change of a block does to the weight of the runs, in the bitmap without or with the
block. -/
theorem weight_change {p : ℕ → Bool} (hb : bno < fpg) (hp : p bno = true) (c k : ℕ) :
    weight p fpg (ofLength c k) =
      weight (Function.update p bno false) fpg (ofLength c k) +
        change c (behind p bno) (ahead p (bno + 1) (fpg - (bno + 1))) k := by
  have hahead := ahead_spec p (bno + 1) (fpg - (bno + 1))
  rw [Nat.add_sub_cancel' (show bno + 1 ≤ fpg from hb)] at hahead
  rw [weight_take hb hp (behind_spec p bno) hahead, change]
  ring

theorem behind_update (p : ℕ → Bool) (b : ℕ) (v : Bool) :
    behind (Function.update p b v) b = behind p b :=
  (behind_spec _ b).unique ((behind_spec p b).update v)

theorem ahead_update (p : ℕ → Bool) (b n : ℕ) (v : Bool) :
    ahead (Function.update p b v) (b + 1) n = ahead p (b + 1) n :=
  (ahead_spec _ (b + 1) n).unique ((ahead_spec p (b + 1) n).update v)

end Counts

/-! ### Runs of calls -/

/-- A call of `ext2_clusteracct`, from `ext2_alloccg` or from `ext2_blkfree`. -/
inductive ClusterCall where
  | alloc (bno : ℕ)
  | free (bno : ℕ)
  deriving DecidableEq, Repr

namespace ClusterCall

/-- The block, relative to the group. -/
def bno : ClusterCall → ℕ
  | alloc bno => bno
  | free bno => bno

/-- The argument `cnt`. -/
def cnt : ClusterCall → ℤ
  | alloc _ => -1
  | free _ => 1

/-- The bitmap as the caller hands it in. -/
def changed : ClusterCall → Bitmap → Bitmap
  | alloc bno, map => map.setbit bno
  | free bno, map => map.clrbit bno

/-- `ext2_alloccg` takes a free block; `ext2_blkfree` panics at a block that is free. -/
def Allowed (fpg : ℕ) (map : Bitmap) : ClusterCall → Prop
  | alloc bno => bno < fpg ∧ map.isclr bno = true
  | free bno => bno < fpg ∧ map.isset bno = true

end ClusterCall

/-- The bitmap and the summary of a group. -/
structure ClusterState where
  map : Bitmap
  cs : Csum

namespace ClusterState

/-- The state at the mount: `M_ZERO`, and nothing is known of the group. -/
def mounted (contigsumsize : ℕ) (map : Bitmap) : ClusterState :=
  { map := map, cs := { init := false, sum := 0, maxcluster := contigsumsize } }

/-- One allocation or free. -/
def call (fpg contigsumsize : ℕ) (st : ClusterState) (a : ClusterCall) : ClusterState :=
  { map := a.changed st.map
    cs := ext2Clusteracct fpg contigsumsize (a.changed st.map) a.bno a.cnt st.cs }

/-- Allocations and frees, one after the other. -/
def run (fpg contigsumsize : ℕ) (st : ClusterState) (calls : List ClusterCall) : ClusterState :=
  calls.foldl (call fpg contigsumsize) st

/-- Every call is allowed where it is made. -/
def Valid (fpg contigsumsize : ℕ) : ClusterState → List ClusterCall → Prop
  | _, [] => True
  | st, a :: calls => a.Allowed fpg st.map ∧ Valid fpg contigsumsize (st.call fpg contigsumsize a) calls

/-- The counts and `e2fs_maxcluster` say what the bitmap says. -/
structure Right (fpg contigsumsize : ℕ) (st : ClusterState) : Prop where
  sum : ∀ k, 1 ≤ k → k ≤ contigsumsize → st.cs.sum k = freeRuns fpg contigsumsize st.map k
  max_le : st.cs.maxcluster ≤ contigsumsize
  max_pos : 0 < st.cs.maxcluster → 0 < st.cs.sum st.cs.maxcluster
  le_max : ∀ k, 1 ≤ k → k ≤ contigsumsize → 0 < st.cs.sum k → k ≤ st.cs.maxcluster

end ClusterState

/-- The block is at one end of a free run of its own group that has `e2fs_contigsumsize` blocks
without it. -/
def AtEnd (fpg contigsumsize : ℕ) (map : Bitmap) (bno : ℕ) : Prop :=
  (bno = 0 ∨ map.isset (bno - 1) = true) ∧ bno + contigsumsize < fpg ∧
      (∀ i, bno < i → i ≤ bno + contigsumsize → map.isclr i = true) ∨
    (bno + 1 = fpg ∨ map.isset (bno + 1) = true) ∧ contigsumsize ≤ bno ∧
      ∀ i, bno - contigsumsize ≤ i → i < bno → map.isclr i = true

section Run

open ClusterState

variable {map : Bitmap} {fpg c i k x y bno n : ℕ} {sum : ℕ → ℤ} {cnt : ℤ} {st : ClusterState}
  {a : ClusterCall} {calls : List ClusterCall}

theorem largest_spec (sum : ℕ → ℤ) (c : ℕ) :
    largest sum c ≤ c ∧ (0 < largest sum c → 0 < sum (largest sum c)) ∧
      ∀ k, 1 ≤ k → k ≤ c → 0 < sum k → k ≤ largest sum c := by
  induction c with
  | zero => exact ⟨le_rfl, fun h => absurd h (lt_irrefl 0), fun k hk hkc => by omega⟩
  | succ c ih =>
    obtain ⟨hle, hpos, hmax⟩ := ih
    unfold largest
    split
    next h => exact ⟨le_rfl, fun _ => h, fun k _ hk _ => hk⟩
    next h =>
      refine ⟨by omega, hpos, fun k hk hkc hs => ?_⟩
      rcases eq_or_ne k (c + 1) with rfl | hne
      · exact absurd hs h
      · exact hmax k hk (by omega) hs

/-- How far a count is off. -/
def ClusterState.error (fpg c : ℕ) (st : ClusterState) (k : ℕ) : ℤ :=
  st.cs.sum k - freeRuns fpg c st.map k

/-- What the call of a block adds to the count of a length. -/
def ClusterCall.adds (fpg c : ℕ) (map : Bitmap) (a : ClusterCall) (k : ℕ) : ℤ :=
  a.cnt * change c (behind map.isclr a.bno) (ahead map.isclr (a.bno + 1) (fpg - (a.bno + 1))) k

theorem ClusterCall.bno_lt (h : a.Allowed fpg map) : a.bno < fpg := by
  cases a <;> exact h.1

/-- The number of runs changes by what the call adds. -/
theorem freeRuns_changed (h : a.Allowed fpg map) (c k : ℕ) :
    (freeRuns fpg c (a.changed map) k : ℤ) = freeRuns fpg c map k + a.adds fpg c map k := by
  rw [freeRuns_eq, freeRuns_eq]
  cases a with
  | alloc bno =>
    have hw := weight_change h.1 h.2 c k
    simp only [ClusterCall.changed, ClusterCall.adds, ClusterCall.cnt, ClusterCall.bno,
      Bitmap.isclr_setbit]
    linarith
  | free bno =>
    have hclr : map.isclr bno = false := by simpa [Bitmap.isset_eq_not] using h.2
    have hw := weight_change (p := Function.update map.isclr bno true) h.1
      (Function.update_self _ _ _) c k
    have hself : Function.update map.isclr bno false = map.isclr := by
      rw [← hclr, Function.update_eq_self]
    rw [Function.update_idem, hself, behind_update, ahead_update] at hw
    simp only [ClusterCall.changed, ClusterCall.adds, ClusterCall.cnt, ClusterCall.bno,
      Bitmap.isclr_clrbit]
    linarith

/-- The scans see the same in the bitmap before the change. -/
theorem adds_changed (a : ClusterCall) (fpg c : ℕ) (map : Bitmap) :
    a.adds fpg c (a.changed map) = a.adds fpg c map := by
  funext k
  cases a <;> simp only [ClusterCall.adds, ClusterCall.changed, ClusterCall.bno,
    Bitmap.isclr_setbit, Bitmap.isclr_clrbit, behind_update, ahead_update]

theorem call_sum (hc : 0 < c) (fpg : ℕ) (st : ClusterState) (a : ClusterCall) (k : ℕ) :
    (st.call fpg c a).cs.sum k =
      initialized fpg c (a.changed st.map) st.cs k + a.adds fpg c st.map k := by
  rw [← adds_changed, ClusterCall.adds, ← account_eq hc, ← forward_eq, ← backward_eq]
  simp only [ClusterState.call, ext2Clusteracct, if_neg hc.ne']

theorem call_init (fpg c : ℕ) (st : ClusterState) (a : ClusterCall) :
    (st.call fpg c a).cs.init = true := by
  unfold ClusterState.call ext2Clusteracct
  split <;> rfl

/-- **A later call keeps the error.** -/
theorem acct_error (hc : 0 < c) (hinit : st.cs.init = true) (h : a.Allowed fpg st.map) (k : ℕ) :
    (st.call fpg c a).error fpg c k = st.error fpg c k := by
  have hsum := call_sum hc fpg st a k
  rw [initialized, if_neg (by simp [hinit])] at hsum
  rw [ClusterState.error, hsum]
  simp only [ClusterState.call, ClusterState.error, freeRuns_changed h]
  ring

/-- The first call counts its block twice. -/
theorem first_error (hc : 0 < c) (map : Bitmap) (a : ClusterCall) (k : ℕ) :
    ((mounted c map).call fpg c a).error fpg c k = a.adds fpg c map k := by
  have hsum := call_sum hc fpg (mounted c map) a k
  rw [initialized_fresh rfl rfl, ← freeRuns_eq] at hsum
  rw [ClusterState.error, hsum]
  simp only [ClusterState.call, mounted]
  ring

theorem run_error (hc : 0 < c) (hinit : st.cs.init = true) (h : st.Valid fpg c calls) (k : ℕ) :
    (st.run fpg c calls).error fpg c k = st.error fpg c k := by
  induction calls generalizing st with
  | nil => rfl
  | cons a calls ih =>
    obtain ⟨ha, hcalls⟩ := h
    rw [← acct_error hc hinit ha]
    exact ih (call_init fpg c st a) hcalls

theorem call_max (hc : 0 < c) (fpg : ℕ) (st : ClusterState) (a : ClusterCall) :
    (st.call fpg c a).cs.maxcluster = largest (st.call fpg c a).cs.sum c := by
  simp only [ClusterState.call, ext2Clusteracct, if_neg hc.ne']

theorem run_max (hc : 0 < c) (h : st.cs.maxcluster = largest st.cs.sum c) :
    (st.run fpg c calls).cs.maxcluster = largest (st.run fpg c calls).cs.sum c := by
  induction calls generalizing st with
  | nil => exact h
  | cons a calls ih => exact ih (call_max hc fpg st a)

theorem Valid.take (h : st.Valid fpg c calls) (n : ℕ) : st.Valid fpg c (calls.take n) := by
  induction calls generalizing st n with
  | nil => simpa using h
  | cons a calls ih =>
    cases n with
    | zero => trivial
    | succ n => exact ⟨h.1, ih h.2 n⟩

/-- Where `e2fs_maxcluster` follows the counts, only these can be wrong. -/
theorem right_iff (h : st.cs.maxcluster = largest st.cs.sum c) :
    st.Right fpg c ↔ ∀ k, 1 ≤ k → k ≤ c → st.error fpg c k = 0 := by
  obtain ⟨hle, hpos, hmax⟩ := largest_spec st.cs.sum c
  rw [← h] at hle hpos hmax
  exact ⟨fun h k hk hkc => sub_eq_zero.2 (h.sum k hk hkc),
    fun h => ⟨fun k hk hkc => sub_eq_zero.1 (h k hk hkc), hle, hpos, hmax⟩⟩

/-- The counts do not change exactly when the run was long without the block, and goes on to one side
of it only. -/
theorem change_eq_zero_iff (hc : 0 < c) (x y : ℕ) :
    (∀ k, 1 ≤ k → k ≤ c → change c x y k = 0) ↔ x = 0 ∧ c ≤ y ∨ y = 0 ∧ c ≤ x := by
  constructor
  · intro h
    have hx := h (min x c)
    have hy := h (min y c)
    have hxy := h (min (x + y + 1) c) (by omega) (by omega)
    simp only [change, ofLength] at hx hy hxy
    grind
  · rintro (⟨rfl, h⟩ | ⟨rfl, h⟩) k - -
    · rw [change, ofLength, ofLength, ofLength, min_eq_right h, min_eq_right (by omega)]
      simp [show 0 < y by omega]
    · rw [change, ofLength, ofLength, ofLength, min_eq_right h, min_eq_right (by omega)]
      simp [show 0 < x by omega]

theorem atEnd_iff (hb : bno < fpg) (map : Bitmap) :
    AtEnd fpg c map bno ↔
      behind map.isclr bno = 0 ∧ c ≤ ahead map.isclr (bno + 1) (fpg - (bno + 1)) ∨
        ahead map.isclr (bno + 1) (fpg - (bno + 1)) = 0 ∧ c ≤ behind map.isclr bno := by
  have hbehind := behind_spec map.isclr bno
  have hahead := ahead_spec map.isclr (bno + 1) (fpg - (bno + 1))
  rw [Nat.add_sub_cancel' (show bno + 1 ≤ fpg from hb)] at hahead
  generalize behind map.isclr bno = x at hbehind
  generalize ahead map.isclr (bno + 1) (fpg - (bno + 1)) = y at hahead
  have hx : x = 0 ↔ bno = 0 ∨ map.isset (bno - 1) = true := by
    have := hbehind.le_iff (y := 1)
    rw [Bitmap.isset_eq_not]
    grind
  have hy : y = 0 ↔ bno + 1 = fpg ∨ map.isset (bno + 1) = true := by
    have := hahead.le_iff (y := 1)
    rw [Bitmap.isset_eq_not]
    grind
  rw [hx, hy, hbehind.le_iff, hahead.le_iff, AtEnd]
  refine or_congr (and_congr_right fun _ => and_congr (by omega) ?_) Iff.rfl
  exact forall_congr' fun i => ⟨fun h h₁ h₂ => h (by omega) (by omega), fun h h₁ h₂ => h (by omega) (by omega)⟩

/-- **The summary over a run of calls** from the mount on: it is right after every call if and only if
the first block was at the end of a free run that stays long without it. -/
theorem acct_right_iff (hc : 1 ≤ c) (h : (mounted c map).Valid fpg c (a :: calls)) :
    (∀ n < (a :: calls).length, ((mounted c map).run fpg c ((a :: calls).take (n + 1))).Right fpg c) ↔
      AtEnd fpg c map a.bno := by
  have hmax := call_max hc fpg (mounted c map) a
  have hinit := call_init fpg c (mounted c map) a
  have hadds : (∀ k, 1 ≤ k → k ≤ c → a.adds fpg c map k = 0) ↔ AtEnd fpg c map a.bno := by
    rw [atEnd_iff (ClusterCall.bno_lt h.1), ← change_eq_zero_iff hc]
    have hcnt : a.cnt ≠ 0 := by cases a <;> simp [ClusterCall.cnt]
    simp only [ClusterCall.adds, mul_eq_zero, hcnt, false_or]
  -- after each call the counts are off by what the first call added
  have hright : ∀ n, ((mounted c map).run fpg c ((a :: calls).take (n + 1))).Right fpg c ↔
      ∀ k, 1 ≤ k → k ≤ c → a.adds fpg c map k = 0 := fun n => by
    rw [List.take_succ_cons]
    refine (right_iff (run_max hc hmax)).trans (forall_congr' fun k => ?_)
    rw [← first_error hc map a k, ← run_error hc hinit (Valid.take h.2 n) k]
  rw [← hadds]
  exact ⟨fun h => (hright 0).1 (h 0 (Nat.succ_pos _)), fun h n _ => (hright n).2 h⟩

/-- In a free group of eight blocks the first block is taken and given back. -/
theorem acct_right_first_block :
    ((mounted 4 fun _ => 0).run 8 4 [.alloc 0]).Right 8 4 ∧
      ((mounted 4 fun _ => 0).run 8 4 [.alloc 0, .free 0]).Right 8 4 := by
  have hvalid : (mounted 4 fun _ => 0).Valid 8 4 [.alloc 0, .free 0] :=
    ⟨⟨by decide, by decide⟩, ⟨by decide, by decide⟩, trivial⟩
  have hright := (acct_right_iff (by decide) hvalid).2
    (.inl ⟨.inl rfl, by decide, fun i _ _ => by simp [Bitmap.isclr]⟩)
  exact ⟨hright 0 (by decide), hright 1 (by decide)⟩

/-- A block in the middle of a free group: the part before it is counted twice. -/
theorem middle_block_wrong : (mounted 4 fun _ => 0).Valid 8 4 [.alloc 3] ∧
    ¬((mounted 4 fun _ => 0).run 8 4 [.alloc 3]).Right 8 4 := by
  refine ⟨⟨⟨by decide, by decide⟩, trivial⟩, fun h => ?_⟩
  have hsum := h.sum 3 (by decide) (by decide)
  revert hsum
  decide

end Run

end Ext2fs
