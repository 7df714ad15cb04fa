import Ext2fs.Fsck.Pool

/-!
# The divisors of the checker

A division by zero does not stop the target machine: its quotient is 0 and its remainder is the
dividend, as for natural numbers here.  So every divisor is recorded instead.

* `readsbDivisors`, `setupDivisors` — the divisions before the passes;
* `Call`, `DivState.step` — what the passes call, with the variables of the inode buffer;
* `NoZeroDivisor` — no divisor of a run is zero;
* **`divisors_iff`** — when this is so.
-/

namespace Ext2fs.Fsck

/-- `NBBY` -/
def NBBY : ℕ := 8

/-- `E2FS_REV0_INODE_SIZE` -/
def REV0_INODE_SIZE : ℕ := 128

/-! ### Before the passes -/

namespace SbImage

variable (fs : SbImage)

/-- `EXT2_DINODE_SIZE` -/
def dinodeSize : ℕ :=
  if E2FS_REV0.toNat < fs.e2fs_rev.toNat then fs.e2fs_inode_size.toNat else REV0_INODE_SIZE

/-- `e2fs_ipb` -/
def ipb : ℕ := fs.bsize / fs.dinodeSize

/-- `NINDIR` -/
def nindir : ℕ := fs.bsize / 4

/-- `maxino` -/
def maxino : ℕ := u32 (fs.gcount * fs.e2fs_ipg.toNat : ℕ)

/-- `numdirs`, for the `ext2bgd_ndirs` of the groups. -/
def numdirs (ndirs : ℕ → BitVec 16) : ℕ := ((List.range fs.gcount).map fun cg => (ndirs cg).toNat).sum

/-- The divisors in `readsb`, once the checks of the superblock are passed. -/
def readsbDivisors : List ℕ :=
  [fs.e2fs_bpg.toNat, fs.gdsize, fs.bsize / fs.gdsize, fs.dinodeSize, fs.ipb, DEV_BSIZE]

/-- The divisors in `setup` and in the `bufinit` it calls. -/
def setupDivisors : List ℕ := fs.readsbDivisors ++ [NBBY, 2, fs.bsize]

end SbImage

/-! ### The passes -/

/-- The calls of the passes that come to a division. -/
inductive Call where
  | resetinodebuf
  | getnextinode (inumber : ℕ)
  | ginode (inumber : ℕ)
  | cacheino (inumber : ℕ)
  /-- the answer: the inode is in the cache -/
  | getinoinfo (inumber : ℕ) (found : Bool)
  | chkrange (blk : ℕ)
  | checkinode
  | ckinode
  | iblock (level : Fin 3)
  /-- `dirscan`, `fsck_readdir`, `dircheck`, and the sizes that `pass2` and `expanddir` round up -/
  | dirscan
  | pass5
  deriving DecidableEq, Repr

/-- The calls that take the inode number modulo `numdirs`. -/
def Call.Hashes : Call → Prop
  | cacheino _ => True
  | getinoinfo _ _ => True
  | _ => False

instance : DecidablePred Call.Hashes := fun c => by
  cases c <;> unfold Call.Hashes <;> infer_instance

/-- The variables that divisors are computed from; the divisors and the calls of the run, in order; and
whether `errexit` has ended it. -/
structure DivState where
  startinum : ℕ
  nextino : ℕ
  lastinum : ℕ
  readcnt : ℕ
  readpercg : ℕ
  fullcnt : ℕ
  partialcnt : ℕ
  ended : Bool
  divisors : List ℕ
  calls : List Call

namespace DivState

/-- Divisions are made. -/
def divide (ds : List ℕ) (s : DivState) : DivState := { s with divisors := s.divisors ++ ds }

/-- `errexit` -/
def errexit (s : DivState) : DivState := { s with ended := true }

section

variable (fs : SbImage)

/-- `getnextinode` -/
def getnextinode (inumber : ℕ) (s : DivState) : DivState :=
  let next := s.nextino
  let s := { s with nextino := next + 1 }
  if inumber ≠ next ∨ fs.maxino < inumber then s.errexit
  else if s.lastinum ≤ inumber then
    -- `fsck_ino_to_fsba` of the first inode of the chunk
    let s := { s with readcnt := s.readcnt + 1 }.divide
      [fs.e2fs_ipg.toNat, fs.e2fs_ipg.toNat, fs.ipb, s.readpercg]
    if s.readcnt % s.readpercg = 0 then { s with lastinum := s.lastinum + s.partialcnt }
    else { s with lastinum := s.lastinum + s.fullcnt }
  else s

/-- `resetinodebuf` -/
def resetinodebuf (s : DivState) : DivState :=
  let fullcnt := INOBUFSIZE / fs.dinodeSize
  let rest := fs.e2fs_ipg.toNat % fullcnt
  let readpercg := fs.e2fs_ipg.toNat / fullcnt
  getnextinode fs 1 <| { s with
    startinum := 0
    nextino := 1
    lastinum := 1
    readcnt := 0
    fullcnt := fullcnt
    readpercg := if rest ≠ 0 then readpercg + 1 else readpercg
    partialcnt := if rest ≠ 0 then rest else fullcnt }.divide [fs.dinodeSize, fullcnt, fullcnt]

/-- `ginode` -/
def ginode (inumber : ℕ) (s : DivState) : DivState :=
  if (inumber < FIRSTINO ∧ inumber ≠ ROOTINO) ∨ fs.maxino < inumber then s.errexit
  else if s.startinum = 0 ∨ inumber < s.startinum ∨ s.startinum + fs.ipb ≤ inumber then
    { s with startinum := (inumber - 1) / fs.ipb * fs.ipb + 1 }.divide
      [fs.e2fs_ipg.toNat, fs.e2fs_ipg.toNat, fs.ipb, fs.ipb, fs.ipb]
  else s.divide [fs.ipb]

/-- What a call does. -/
def exec (numdirs : ℕ) (s : DivState) : Call → DivState
  | .resetinodebuf => s.resetinodebuf fs
  | .getnextinode i => s.getnextinode fs i
  | .ginode i => s.ginode fs i
  | .cacheino _ => s.divide [fs.bsize, numdirs]
  | .getinoinfo _ found =>
    let s := s.divide [numdirs]
    if found then s else s.errexit
  | .chkrange _ => s.divide [fs.e2fs_bpg.toNat]
  | .checkinode => s.divide [fs.bsize, 4, fs.nindir]
  | .ckinode => s.divide [fs.bsize]
  | .iblock level => s.divide [fs.bsize * fs.nindir ^ (level : ℕ)]
  | .dirscan => s.divide [fs.bsize]
  | .pass5 => s.divide [NBBY]

/-- One step of a run that has not ended. -/
def step (numdirs : ℕ) (s : DivState) (c : Call) : DivState :=
  if s.ended then s else ({ s with calls := s.calls ++ [c] } : DivState).exec fs numdirs c

/-- `setup` is done, and `pass1` has reached the inodes. -/
def start : DivState :=
  resetinodebuf fs ⟨0, 0, 0, 0, 0, 0, 0, false, fs.setupDivisors, []⟩

/-- The passes, up to where they end. -/
def run (numdirs : ℕ) (cs : List Call) : DivState := cs.foldl (step fs numdirs) (start fs)

end

end DivState

/-- **No division has a zero divisor**, in `setup` and in the calls that follow. -/
def NoZeroDivisor (fs : SbImage) (ndirs : ℕ → BitVec 16) (cs : List Call) : Prop :=
  0 ∉ (DivState.run fs (fs.numdirs ndirs) cs).divisors

/-! ### The divisors of a volume with proper inodes -/

namespace DivState

variable {fs : SbImage} {s : DivState} {numdirs : ℕ}

theorem zero_mem_divide {ds : List ℕ} :
    0 ∈ (s.divide ds).divisors ↔ 0 ∈ s.divisors ∨ 0 ∈ ds := List.mem_append

/-- The inodes have a size, and fit into a block. -/
structure Proper (fs : SbImage) : Prop where
  log : fs.e2fs_log_bsize.toNat ≤ 2
  bpg : fs.e2fs_bpg.toNat ≠ 0
  pos : 0 < fs.dinodeSize
  le : fs.dinodeSize ≤ fs.bsize

theorem bsize_cases (hlog : fs.e2fs_log_bsize.toNat ≤ 2) :
    fs.bsize = 1024 ∨ fs.bsize = 2048 ∨ fs.bsize = 4096 := by
  unfold SbImage.bsize
  have h3 : fs.e2fs_log_bsize.toNat = 0 ∨ fs.e2fs_log_bsize.toNat = 1 ∨
      fs.e2fs_log_bsize.toNat = 2 := by omega
  rcases h3 with h | h | h <;> rw [h] <;> decide

namespace Proper

variable (h : Proper fs)

include h

theorem bsize_pos : 0 < fs.bsize := h.pos.trans_le h.le

theorem ipb_pos : 0 < fs.ipb := Nat.div_pos h.le h.pos

theorem nindir_pos : 0 < fs.nindir := by
  unfold SbImage.nindir
  rcases bsize_cases h.log with hb | hb | hb <;> rw [hb] <;> decide

theorem fullcnt_pos : 0 < INOBUFSIZE / fs.dinodeSize := by
  refine Nat.div_pos (h.le.trans ?_) h.pos
  unfold INOBUFSIZE
  rcases bsize_cases h.log with hb | hb | hb <;> rw [hb] <;> decide

end Proper

/-- An inode number below `maxino` belongs to a group of some inodes. -/
theorem ipg_pos {i : ℕ} (h1 : 1 ≤ i) (hi : ¬fs.maxino < i) : 0 < fs.e2fs_ipg.toNat := by
  by_contra h0
  have hz : fs.e2fs_ipg.toNat = 0 := by omega
  have hmax : fs.maxino = 0 := by
    unfold SbImage.maxino
    rw [hz]
    rfl
  omega

/-- The chunks of a group with inodes are at least one, and the scan counts from one on. -/
structure Ready (fs : SbImage) (s : DivState) : Prop where
  readpercg : 0 < fs.e2fs_ipg.toNat → 0 < s.readpercg
  nextino : 1 ≤ s.nextino

theorem getnextinode_ready (h : Ready fs s) (i : ℕ) : Ready fs (s.getnextinode fs i) := by
  unfold getnextinode
  dsimp only
  split_ifs <;> exact ⟨h.readpercg, Nat.le_add_left 1 _⟩

theorem getnextinode_zero (hp : Proper fs) (h : Ready fs s) (i : ℕ) :
    0 ∈ (s.getnextinode fs i).divisors ↔ 0 ∈ s.divisors := by
  unfold getnextinode
  dsimp only
  by_cases hbad : i ≠ s.nextino ∨ fs.maxino < i
  · rw [if_pos hbad]
    rfl
  · rw [if_neg hbad]
    obtain ⟨hi, hmax⟩ := not_or.1 hbad
    have hipg := ipg_pos (not_not.1 hi ▸ h.nextino) hmax
    have hper := h.readpercg hipg
    have hipb := hp.ipb_pos
    have hnone : 0 ∈ s.divisors ++ [fs.e2fs_ipg.toNat, fs.e2fs_ipg.toNat, fs.ipb, s.readpercg] ↔
        0 ∈ s.divisors := by
      refine List.mem_append.trans (or_iff_left ?_)
      simp only [List.mem_cons, List.not_mem_nil, or_false, not_or]
      omega
    split_ifs
    · exact hnone
    · exact hnone
    · rfl

/-- A quotient that is rounded up, as `readpercg` is, is not zero. -/
theorem quotient_pos {n : ℕ} (hn : 0 < n) (f : ℕ) :
    0 < if n % f ≠ 0 then n / f + 1 else n / f := by
  split
  · exact Nat.succ_pos _
  · next hrest =>
    have hdvd : f ∣ n := Nat.dvd_of_mod_eq_zero (not_not.1 hrest)
    exact Nat.div_pos (Nat.le_of_dvd hn hdvd) (Nat.pos_of_dvd_of_pos hdvd hn)

theorem resetinodebuf_ready (s : DivState) : Ready fs (s.resetinodebuf fs) :=
  getnextinode_ready ⟨fun hipg => quotient_pos hipg _, Nat.le_refl 1⟩ 1

theorem resetinodebuf_zero (hp : Proper fs) (s : DivState) :
    0 ∈ (s.resetinodebuf fs).divisors ↔ 0 ∈ s.divisors := by
  have hfull := hp.fullcnt_pos
  have hpos := hp.pos
  refine (getnextinode_zero hp ⟨fun hipg => quotient_pos hipg _, Nat.le_refl 1⟩ 1).trans ?_
  refine List.mem_append.trans (or_iff_left ?_)
  simp only [List.mem_cons, List.not_mem_nil, or_false, not_or]
  omega

theorem ginode_zero (hp : Proper fs) (s : DivState) (i : ℕ) :
    0 ∈ (s.ginode fs i).divisors ↔ 0 ∈ s.divisors := by
  have hipb := hp.ipb_pos
  unfold ginode
  by_cases hbad : (i < FIRSTINO ∧ i ≠ ROOTINO) ∨ fs.maxino < i
  · rw [if_pos hbad]
    rfl
  · rw [if_neg hbad]
    have h1 : 1 ≤ i := by
      unfold FIRSTINO ROOTINO at hbad
      omega
    have hipg := ipg_pos h1 (not_or.1 hbad).2
    split
    all_goals
      refine List.mem_append.trans (or_iff_left ?_)
      simp only [List.mem_cons, List.not_mem_nil, or_false, not_or]
      omega

/-! ### Calls and runs -/

/-- **One call** on such a volume: only `numdirs` can be a zero divisor. -/
theorem exec_zero (hp : Proper fs) (h : Ready fs s) (c : Call) :
    Ready fs (s.exec fs numdirs c) ∧
      (0 ∈ (s.exec fs numdirs c).divisors ↔ 0 ∈ s.divisors ∨ numdirs = 0 ∧ c.Hashes) := by
  have hB := hp.bsize_pos
  have hN := hp.nindir_pos
  have hbpg := hp.bpg
  have hone : ∀ d : ℕ, 0 < d → (0 ∈ (s.divide [d]).divisors ↔ 0 ∈ s.divisors) := fun d hd => by
    rw [zero_mem_divide, List.mem_singleton]
    exact or_iff_left hd.ne
  have hplain : ¬c.Hashes → ∀ p : Prop, (p ↔ p ∨ numdirs = 0 ∧ c.Hashes) := fun hc p =>
    ⟨.inl, fun hp => hp.resolve_right fun h => hc h.2⟩
  cases c with
  | resetinodebuf =>
    exact ⟨resetinodebuf_ready s, (resetinodebuf_zero hp s).trans (hplain id _)⟩
  | getnextinode i =>
    exact ⟨getnextinode_ready h i, (getnextinode_zero hp h i).trans (hplain id _)⟩
  | ginode i =>
    refine ⟨?_, (ginode_zero hp s i).trans (hplain id _)⟩
    show Ready fs (s.ginode fs i)
    unfold ginode
    split_ifs
    all_goals exact ⟨h.readpercg, h.nextino⟩
  | cacheino i =>
    refine ⟨⟨h.readpercg, h.nextino⟩, zero_mem_divide.trans (or_congr_right ?_)⟩
    simp only [List.mem_cons, List.not_mem_nil, or_false, Call.Hashes, and_true]
    omega
  | getinoinfo i found =>
    have hdivide : 0 ∈ (s.divide [numdirs]).divisors ↔ 0 ∈ s.divisors ∨ numdirs = 0 ∧ True := by
      rw [zero_mem_divide, List.mem_singleton, and_true, eq_comm]
    show Ready fs (if found then s.divide [numdirs] else (s.divide [numdirs]).errexit) ∧
      (0 ∈ (if found then s.divide [numdirs] else (s.divide [numdirs]).errexit).divisors ↔ _)
    cases found
    · exact ⟨⟨h.readpercg, h.nextino⟩, hdivide⟩
    · exact ⟨⟨h.readpercg, h.nextino⟩, hdivide⟩
  | chkrange blk => exact ⟨⟨h.readpercg, h.nextino⟩, (hone _ (by omega)).trans (hplain id _)⟩
  | checkinode =>
    refine ⟨⟨h.readpercg, h.nextino⟩, (zero_mem_divide.trans (or_iff_left ?_)).trans (hplain id _)⟩
    simp only [List.mem_cons, List.not_mem_nil, or_false, not_or]
    omega
  | ckinode => exact ⟨⟨h.readpercg, h.nextino⟩, (hone _ hB).trans (hplain id _)⟩
  | iblock level =>
    exact ⟨⟨h.readpercg, h.nextino⟩,
      (hone _ (Nat.mul_pos hB (Nat.pow_pos hN))).trans (hplain id _)⟩
  | dirscan => exact ⟨⟨h.readpercg, h.nextino⟩, (hone _ hB).trans (hplain id _)⟩
  | pass5 => exact ⟨⟨h.readpercg, h.nextino⟩, (hone _ (by decide)).trans (hplain id _)⟩

theorem exec_calls (s : DivState) (c : Call) : (s.exec fs numdirs c).calls = s.calls := by
  have hnext : ∀ (t : DivState) (i : ℕ), (t.getnextinode fs i).calls = t.calls := fun t i => by
    unfold getnextinode
    dsimp only
    split_ifs <;> rfl
  cases c with
  | resetinodebuf => exact hnext _ 1
  | getnextinode i => exact hnext s i
  | ginode i =>
    show (s.ginode fs i).calls = s.calls
    unfold ginode
    split_ifs <;> rfl
  | getinoinfo i found => cases found <;> rfl
  | _ => rfl

/-- **A run** on such a volume. -/
theorem run_zero (hp : Proper fs) (cs : List Call) (h : Ready fs s)
    (hs : 0 ∈ s.divisors ↔ numdirs = 0 ∧ ∃ c ∈ s.calls, c.Hashes) :
    0 ∈ (cs.foldl (step fs numdirs) s).divisors ↔
      numdirs = 0 ∧ ∃ c ∈ (cs.foldl (step fs numdirs) s).calls, c.Hashes := by
  induction cs generalizing s with
  | nil => exact hs
  | cons c cs ih =>
    rw [List.foldl_cons]
    by_cases hend : s.ended = true
    · have hstep : step fs numdirs s c = s := if_pos hend
      rw [hstep]
      exact ih h hs
    · have hstep : step fs numdirs s c =
          ({ s with calls := s.calls ++ [c] } : DivState).exec fs numdirs c := if_neg hend
      have hexec : Ready fs (({ s with calls := s.calls ++ [c] } : DivState).exec fs numdirs c) ∧ _ :=
        exec_zero hp (s := { s with calls := s.calls ++ [c] }) ⟨h.readpercg, h.nextino⟩ c
      obtain ⟨hready, hzero⟩ := hexec
      rw [hstep]
      refine ih hready ?_
      rw [hzero, exec_calls]
      show 0 ∈ s.divisors ∨ _ ↔ numdirs = 0 ∧ ∃ a ∈ s.calls ++ [c], a.Hashes
      rw [hs, ← and_or_left]
      refine and_congr_right fun _ => ?_
      simp only [List.mem_append, List.mem_singleton, or_and_right, exists_or, exists_eq_left]

end DivState

/-! ### The condition -/

section

variable {fs : SbImage}

/-- A divisor stays recorded. -/
theorem DivState.setup_divisors (numdirs : ℕ) (cs : List Call) :
    fs.setupDivisors ⊆ (DivState.run fs numdirs cs).divisors := by
  have hnext : ∀ (t : DivState) (i : ℕ), t.divisors ⊆ (t.getnextinode fs i).divisors := fun t i => by
    unfold DivState.getnextinode
    dsimp only
    split_ifs
    · exact List.Subset.refl _
    · exact List.subset_append_left ..
    · exact List.subset_append_left ..
    · exact List.Subset.refl _
  have hreset : ∀ t : DivState, t.divisors ⊆ (t.resetinodebuf fs).divisors := fun t => by
    unfold DivState.resetinodebuf
    refine List.Subset.trans ?_ (hnext _ 1)
    exact List.subset_append_left ..
  have hexec : ∀ (t : DivState) (c : Call), t.divisors ⊆ (t.exec fs numdirs c).divisors := by
    intro t c
    cases c with
    | resetinodebuf => exact hreset t
    | getnextinode i => exact hnext t i
    | ginode i =>
      show t.divisors ⊆ (t.ginode fs i).divisors
      unfold DivState.ginode
      split_ifs
      · exact List.Subset.refl _
      · exact List.subset_append_left ..
      · exact List.subset_append_left ..
    | getinoinfo i found => cases found <;> exact List.subset_append_left ..
    | _ => exact List.subset_append_left ..
  have hrun : ∀ (cs : List Call) (t : DivState),
      t.divisors ⊆ (cs.foldl (DivState.step fs numdirs) t).divisors := by
    intro cs
    induction cs with
    | nil => exact fun t => List.Subset.refl _
    | cons c cs ih =>
      intro t
      refine List.Subset.trans ?_ (ih _)
      unfold DivState.step
      split
      · exact List.Subset.refl _
      · exact hexec { t with calls := t.calls ++ [c] } c
  exact List.Subset.trans (hreset ⟨0, 0, 0, 0, 0, 0, 0, false, fs.setupDivisors, []⟩) (hrun cs _)

/-- **When no divisor is zero**: the inodes of the volume have a size and fit into a block, and no
directory comes to the cache of a volume whose descriptors count none. -/
theorem divisors_iff (env : Env) (sb : SbImage) (s : St) (h : setup env sb = some s)
    (ndirs : ℕ → BitVec 16) (cs : List Call) :
    NoZeroDivisor s.sblock ndirs cs ↔
      (0 < s.sblock.dinodeSize ∧ s.sblock.dinodeSize ≤ s.sblock.bsize) ∧
        ((∃ cg < s.sblock.gcount, ndirs cg ≠ 0) ∨
          ∀ c ∈ (DivState.run s.sblock (s.sblock.numdirs ndirs) cs).calls, ¬c.Hashes) := by
  have hchecks := (setup_checks h).1
  generalize s.sblock = fs at hchecks
  have hdirs : fs.numdirs ndirs ≠ 0 ↔ ∃ cg < fs.gcount, ndirs cg ≠ 0 := by
    unfold SbImage.numdirs
    rw [Ne, List.sum_eq_zero_iff]
    simp only [List.mem_map, List.mem_range, not_forall]
    constructor
    · rintro ⟨x, ⟨cg, hcg, rfl⟩, hx⟩
      exact ⟨cg, hcg, fun hc => hx (by rw [hc]; rfl)⟩
    · rintro ⟨cg, hcg, hx⟩
      exact ⟨_, ⟨cg, hcg, rfl⟩, fun hc => hx (BitVec.eq_of_toNat_eq hc)⟩
  by_cases hsize : 0 < fs.dinodeSize ∧ fs.dinodeSize ≤ fs.bsize
  · have hp : DivState.Proper fs := by
      unfold SbImage.Bad at hchecks
      refine ⟨by omega, fun hc => ?_, hsize.1, hsize.2⟩
      exact hchecks (.inr (.inr (.inl (BitVec.eq_of_toNat_eq hc))))
    have hgd : fs.gdsize ≠ 0 ∧ fs.bsize / fs.gdsize ≠ 0 := by
      unfold SbImage.Bad EXT2_MIN_GD_SIZE at hchecks
      have hle : fs.gdsize ≤ fs.bsize := by omega
      have hpos : 0 < fs.gdsize := by omega
      exact ⟨by omega, (Nat.div_pos hle hpos).ne'⟩
    have hsetup : 0 ∉ fs.setupDivisors := by
      have hB := hp.bsize_pos
      have hipb := hp.ipb_pos
      have hbpg := hp.bpg
      unfold SbImage.setupDivisors SbImage.readsbDivisors NBBY DEV_BSIZE
      simp only [List.cons_append, List.nil_append, List.mem_cons, List.not_mem_nil, or_false, not_or]
      omega
    have hstart : 0 ∈ (DivState.start fs).divisors ↔
        fs.numdirs ndirs = 0 ∧ ∃ c ∈ (DivState.start fs).calls, c.Hashes := by
      have hcalls : (DivState.start fs).calls = [] :=
        @DivState.exec_calls fs 0 _ .resetinodebuf
      rw [hcalls]
      unfold DivState.start
      rw [DivState.resetinodebuf_zero hp]
      simpa using hsetup
    have hrun := DivState.run_zero hp cs (DivState.resetinodebuf_ready _) hstart
    unfold NoZeroDivisor
    rw [← hdirs, and_iff_right hsize]
    refine (not_congr hrun).trans (not_and_or.trans (or_congr_right ?_))
    simp only [not_exists, not_and]
    rfl
  · refine iff_of_false (fun hno => ?_) fun hc => hsize hc.1
    have hdiv : fs.setupDivisors ⊆ _ := DivState.setup_divisors (fs.numdirs ndirs) cs
    unfold NoZeroDivisor at hno
    by_cases hpos : 0 < fs.dinodeSize
    · have hipb : fs.ipb = 0 := Nat.div_eq_of_lt (by omega)
      refine hno (hdiv ?_)
      rw [← hipb]
      simp [SbImage.setupDivisors, SbImage.readsbDivisors]
    · have hz : fs.dinodeSize = 0 := by omega
      refine hno (hdiv ?_)
      rw [← hz]
      simp [SbImage.setupDivisors, SbImage.readsbDivisors]

end

/-- A volume of one group with an inode size of its own. -/
def withInodeSize (size : BitVec 16) : SbImage := { oneGroup with e2fs_inode_size := size }

/-- `fsck -p` of it. -/
def preenInodeSize (size : BitVec 16) : Env :=
  { preenOneGroup with disk := fun n => if n = 2 then some (withInodeSize size) else none }

/-- **Three volumes that are accepted**: one with inodes of no bytes, one with inodes larger than a
block, and one whose descriptor counts no directories although there is one. -/
theorem zero_divisors :
    ((setup (preenInodeSize 0) (withInodeSize 0)).isSome ∧
        ¬NoZeroDivisor (withInodeSize 0) (fun _ => 1) []) ∧
      ((setup (preenInodeSize 2048) (withInodeSize 2048)).isSome ∧
        ¬NoZeroDivisor (withInodeSize 2048) (fun _ => 1) []) ∧
      ((setup preenOneGroup oneGroup).isSome ∧
        ¬NoZeroDivisor oneGroup (fun _ => 0) [.getnextinode 2, .checkinode, .cacheino 2]) := by
  unfold NoZeroDivisor
  decide +kernel

theorem oneGroup_noZeroDivisor :
    NoZeroDivisor oneGroup (fun _ => 1) [.getnextinode 2, .checkinode, .cacheino 2] := by
  have hset : (setup preenOneGroup oneGroup).map St.sblock = some oneGroup := by decide +kernel
  obtain ⟨s, hs, hsb⟩ := Option.map_eq_some_iff.1 hset
  have hiff := divisors_iff preenOneGroup oneGroup s hs (fun _ => 1)
    [.getnextinode 2, .checkinode, .cacheino 2]
  rw [hsb] at hiff
  exact hiff.2 ⟨by decide +kernel, .inl ⟨0, by decide +kernel, by decide⟩⟩

end Ext2fs.Fsck
