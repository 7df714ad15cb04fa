import Ext2fs.Fsck.Inodes

/-!
# How the checker walks over the blocks of an inode

`ckinode` hands every block number of an inode to the function of the pass that calls it: the direct
pointers, then the trees of the indirect ones, a block of pointers before what it points at.

* `chkrange` — the numbers that may be block numbers;
* `ckinode`, `iblock` — the walk, over a state that only the function of the pass changes;
* `blockRefs` — the numbers in the order of the walk;
* **`ckinode_eq`** — a function that answers by `chkrange`, or stops, is given these numbers until it
  stops.
-/

namespace Ext2fs.Fsck

/-- `EXT2_MAXSYMLINKLEN`: fifteen pointers. -/
def MAXSYMLINKLEN : ℕ := 60

/-! The kinds of files, and the bits of a mode that say which. -/

def IFIFO : ℕ := 0x1000
def IFCHR : ℕ := 0x2000
def IFDIR : ℕ := 0x4000
def IFBLK : ℕ := 0x6000
def IFREG : ℕ := 0x8000
def IFLNK : ℕ := 0xA000
def IFSOCK : ℕ := 0xC000
def IFMT : ℕ := 0xF000

/-- What the passes read of a `struct ext2fs_dinode`. -/
structure Dinode where
  e2di_mode : ℕ
  e2di_size : ℕ
  e2di_size_high : ℕ
  e2di_dtime : ℕ
  e2di_nlink : ℕ
  e2di_nblock : ℕ
  /-- `e2di_blocks`: the twelve direct pointers and the three indirect ones -/
  direct : List ℕ
  indirect : List ℕ
  deriving DecidableEq, Repr

/-- `mode & IFMT` -/
def Dinode.fmt (dp : Dinode) : ℕ := dp.e2di_mode &&& IFMT

/-- `inosize` -/
def Dinode.inosize (dp : Dinode) : ℕ :=
  if dp.fmt = IFREG then dp.e2di_size ||| dp.e2di_size_high <<< 32 else dp.e2di_size

/-- What the passes know of the layout of the volume, the descriptors of its groups included. -/
structure Layout extends Volume where
  /-- `e2fs_bcount`, which is `maxfsblock` -/
  maxfsblock : ℕ
  /-- `e2fs_first_dblock` -/
  first_dblock : ℕ
  /-- `e2fs_bpg` -/
  bpg : ℕ
  /-- `e2fs_itpg` -/
  itpg : ℕ
  /-- `e2fs_gdbcount` -/
  gdbcount : ℕ
  /-- Not revision 0, and `EXT2F_ROCOMPAT_SPARSE_SUPER` is set. -/
  sparse : Bool
  /-- `ext2bgd_b_bitmap` and `ext2bgd_i_bitmap`, by group -/
  b_bitmap : ℕ → ℕ
  i_bitmap : ℕ → ℕ
  /-- What stands in a block, as 32-bit words. -/
  words : ℕ → ℕ → ℕ

/-- A small volume: the descriptors in block 2, the bitmaps in 3 and 4, the inode table from 5 on. -/
def smallLayout : Layout where
  toVolume := { smallVolume with ipg := 16, ipg_pos := by decide }
  maxfsblock := 100
  first_dblock := 1
  bpg := 8192
  itpg := 2
  gdbcount := 1
  sparse := false
  b_bitmap _ := 3
  i_bitmap _ := 4
  words _ _ := 0

/-- The difference of two values of `u_int64_t`. -/
def sub64 (x y : ℕ) : ℕ := (x + (2 ^ 64 - y % 2 ^ 64)) % 2 ^ 64

/-- The loop of `cg_has_sb`, for at most `n` rounds. -/
def cgHasSbLoop (i : ℕ) : ℕ → ℕ → ℕ → ℕ → Bool
  | 0, _, _, _ => false
  | n + 1, a3, a5, a7 =>
    if a3 ≤ i ∨ a5 ≤ i ∨ a7 ≤ i then
      if i = a3 ∨ i = a5 ∨ i = a7 then true else cgHasSbLoop i n (a3 * 3) (a5 * 5) (a7 * 7)
    else false

/-- `cg_has_sb`; the powers of three leave the range of an `int` in twenty rounds. -/
def cgHasSb (i : ℕ) : Bool := if i = 0 ∨ i = 1 then true else cgHasSbLoop i 20 3 5 7

namespace Layout

variable (v : Layout)

/-- `NINDIR` -/
def nindir : ℕ := v.bsize / 4

/-- `cgoverhead` -/
def cgoverhead (c : ℕ) : ℕ :=
  let overh := 1 + 1 + v.itpg
  if v.sparse ∧ cgHasSb c = false then overh else overh + (1 + v.gdbcount)

/-- `dtog` -/
def dtog (blk : ℕ) : ℕ := u32 ((blk : ℤ) - v.first_dblock) / v.bpg

/-- `chkrange`: the number is out of range. -/
def chkrange (blk cnt : ℕ) : Bool :=
  if v.maxfsblock < u32 (blk + cnt : ℕ) then true
  else
    let c := v.dtog blk
    let overh := v.cgoverhead c
    if blk < u32 (v.bpg * c + overh + v.first_dblock : ℕ) then
      u32 (v.bpg * c + overh + v.first_dblock : ℕ) < u32 (blk + cnt : ℕ)
    else u32 (v.bpg * (c + 1) + overh + v.first_dblock : ℕ) < u32 (blk + cnt : ℕ)

/-- A number that `chkrange` lets pass for one block. -/
def inRange (b : ℕ) : Bool := !v.chkrange b 1

end Layout

/-! ### The walk -/

/-- What the function of a pass returns. -/
inductive Ret where
  | keepon
  | skip
  | stop
  deriving DecidableEq, Repr

section

variable (v : Layout) {σ : Type*}

/-- A run of pointers, each of them standing for `bytes` bytes of the `isize` that are left. -/
def eachWord (bytes : ℕ) (g : ℕ → ℕ → σ → Ret × σ) : List ℕ → ℕ → σ → Ret × σ
  | [], _, st => (.keepon, st)
  | w :: ws, isize, st =>
    if w = 0 then eachWord bytes g ws (sub64 isize bytes) st
    else
      let r := g w isize st
      if r.1 = .stop then r else eachWord bytes g ws (sub64 isize bytes) r.2

/-- `howmany` for unsigned values. -/
def blocksFor (x y : ℕ) : ℕ := (x + (y - 1)) / y

/-- The pointers of a block that are looked at, `nif`. -/
def Layout.pointers (l isize b : ℕ) : List ℕ :=
  let sizepb := v.bsize * v.nindir ^ l
  let nif := if sizepb * v.nindir < isize then v.nindir else blocksFor isize sizepb
  (List.range nif).map (v.words b)

/-- `iblock`, for a function `f` that is given addresses. -/
def iblock (f : ℕ → σ → Ret × σ) : ℕ → ℕ → ℕ → σ → Ret × σ
  | 0, _, _, st => (.keepon, st)
  | l + 1, isize, b, st =>
    let r := f b st
    if r.1 ≠ .keepon then r
    else if v.chkrange b 1 then (.skip, r.2)
    else eachWord (v.bsize * v.nindir ^ l)
      (fun w isize st => if l = 0 then f w st else iblock f l isize w st) (v.pointers l isize b) isize r.2

/-- The indirect pointers, from level `n` on. -/
def eachLevel (f : ℕ → σ → Ret × σ) : List ℕ → ℕ → ℕ → ℕ → σ → Ret × σ
  | [], _, _, _, st => (.keepon, st)
  | w :: ws, n, sizepb, remsize, st =>
    let sizepb' := sizepb * v.nindir
    if w = 0 then eachLevel f ws (n + 1) sizepb' (sub64 remsize sizepb') st
    else
      let r := iblock v f n remsize w st
      if r.1 = .stop then r else eachLevel f ws (n + 1) sizepb' (sub64 remsize sizepb') r.2

/-- A file without blocks: a device, a fifo or a short symbolic link. -/
def Dinode.blockless (dp : Dinode) : Prop :=
  dp.fmt = IFBLK ∨ dp.fmt = IFCHR ∨ dp.fmt = IFIFO ∨ dp.fmt = IFLNK ∧ dp.inosize < MAXSYMLINKLEN

instance (dp : Dinode) : Decidable dp.blockless := inferInstanceAs (Decidable (_ ∨ _))

/-- `ckinode`, for the type `ADDR`. -/
def ckinode (f : ℕ → σ → Ret × σ) (dp : Dinode) (st : σ) : Ret × σ :=
  if dp.blockless then (.keepon, st)
  else
    let r := eachWord 0 (fun w _ => f w) dp.direct 0 st
    if r.1 = .stop then r
    else eachLevel v f dp.indirect 1 v.bsize (sub64 dp.inosize (v.bsize * NDADDR)) r.2

end

/-! ### The numbers in the order of the walk -/

section

variable (v : Layout)

/-- The numbers below a run of pointers. -/
def wordRefs (bytes : ℕ) (g : ℕ → ℕ → List ℕ) : List ℕ → ℕ → List ℕ
  | [], _ => []
  | w :: ws, isize =>
    (if w = 0 then [] else g w isize) ++ wordRefs bytes g ws (sub64 isize bytes)

/-- The numbers in the tree of an indirect pointer. -/
def treeRefs : ℕ → ℕ → ℕ → List ℕ
  | 0, _, _ => []
  | l + 1, isize, b =>
    b :: if v.inRange b then
        wordRefs (v.bsize * v.nindir ^ l) (fun w isize => if l = 0 then [w] else treeRefs l isize w)
          (v.pointers l isize b) isize
      else []

/-- The numbers below the indirect pointers. -/
def levelRefs : List ℕ → ℕ → ℕ → ℕ → List ℕ
  | [], _, _, _ => []
  | w :: ws, n, sizepb, remsize =>
    (if w = 0 then [] else treeRefs v n remsize w) ++
      levelRefs ws (n + 1) (sizepb * v.nindir) (sub64 remsize (sizepb * v.nindir))

/-- All the numbers that an inode is walked for. -/
def blockRefs (dp : Dinode) : List ℕ :=
  if dp.blockless then []
  else wordRefs 0 (fun w _ => [w]) dp.direct 0 ++
    levelRefs v dp.indirect 1 v.bsize (sub64 dp.inosize (v.bsize * NDADDR))

end

/-! ### The walk is a run over these numbers -/

section

variable (v : Layout) {σ : Type*} {f : ℕ → σ → Ret × σ}

/-- A function is called for one number after the other until it stops. -/
def callAll (f : ℕ → σ → Ret × σ) : List ℕ → σ → Bool × σ
  | [], st => (false, st)
  | b :: bs, st => if (f b st).1 = .stop then (true, (f b st).2) else callAll f bs (f b st).2

theorem callAll_stop {b : ℕ} (l : List ℕ) {st : σ} (h : (f b st).1 = .stop) :
    callAll f (b :: l) st = (true, (f b st).2) := if_pos h

theorem callAll_go {b : ℕ} (l : List ℕ) {st : σ} (h : (f b st).1 ≠ .stop) :
    callAll f (b :: l) st = callAll f l (f b st).2 := if_neg h

theorem callAll_append (l l' : List ℕ) (st : σ) :
    callAll f (l ++ l') st =
      if (callAll f l st).1 then callAll f l st else callAll f l' (callAll f l st).2 := by
  induction l generalizing st with
  | nil => rfl
  | cons b l ih =>
    rw [List.cons_append]
    by_cases h : (f b st).1 = .stop
    · rw [callAll_stop _ h, callAll_stop _ h, if_pos rfl]
    · rw [callAll_go _ h, callAll_go _ h]
      exact ih (f b st).2

/-- Whether a function stopped, and the state it left. -/
def outcome (r : Ret × σ) : Bool × σ := (decide (r.1 = .stop), r.2)

/-- The function of a pass says `SKIP` of what is out of range, and `KEEPON` of the rest, unless it
stops. -/
def Answers (f : ℕ → σ → Ret × σ) : Prop :=
  ∀ b st, (f b st).1 = .stop ∨ (f b st).1 = if v.inRange b then .keepon else .skip

theorem eachWord_eq {bytes : ℕ} {g : ℕ → ℕ → σ → Ret × σ} {refs : ℕ → ℕ → List ℕ}
    (hg : ∀ w isize st, outcome (g w isize st) = callAll f (refs w isize) st) (ws : List ℕ)
    (isize : ℕ) (st : σ) :
    outcome (eachWord bytes g ws isize st) = callAll f (wordRefs bytes refs ws isize) st := by
  induction ws generalizing isize st with
  | nil => rfl
  | cons w ws ih =>
    show outcome (if w = 0 then _ else _) =
      callAll f ((if w = 0 then [] else refs w isize) ++ wordRefs bytes refs ws (sub64 isize bytes)) st
    by_cases hw : w = 0
    · rw [if_pos hw, if_pos hw]
      exact ih _ _
    · rw [if_neg hw, if_neg hw, callAll_append, ← hg]
      show outcome (if (g w isize st).1 = .stop then _ else _) = _
      by_cases hstop : (g w isize st).1 = .stop
      · rw [if_pos hstop]
        exact (if_pos (decide_eq_true hstop)).symm
      · rw [if_neg hstop]
        refine (ih _ _).trans (if_neg ?_).symm
        exact fun h => hstop (of_decide_eq_true h)

theorem callAll_single (b : ℕ) (st : σ) : callAll f [b] st = outcome (f b st) := by
  show (if (f b st).1 = .stop then (true, (f b st).2) else (false, (f b st).2)) = _
  unfold outcome
  by_cases h : (f b st).1 = .stop
  · rw [if_pos h, decide_eq_true h]
  · rw [if_neg h, decide_eq_false h]

theorem treeRefs_succ (l isize b : ℕ) :
    treeRefs v (l + 1) isize b =
      [b] ++ if v.inRange b then
          wordRefs (v.bsize * v.nindir ^ l) (fun w isize => if l = 0 then [w] else treeRefs v l isize w)
            (v.pointers l isize b) isize
        else [] := rfl

theorem iblock_eq (hf : Answers v f) (l isize b : ℕ) (st : σ) :
    outcome (iblock v f l isize b st) = callAll f (treeRefs v l isize b) st := by
  induction l generalizing isize b st with
  | zero => rfl
  | succ l ih =>
    have hword : ∀ w isize st,
        outcome (if l = 0 then f w st else iblock v f l isize w st) =
          callAll f (if l = 0 then [w] else treeRefs v l isize w) st := by
      intro w isize st
      by_cases hl : l = 0
      · rw [if_pos hl, if_pos hl]
        exact (callAll_single w st).symm
      · rw [if_neg hl, if_neg hl]
        exact ih isize w st
    rw [treeRefs_succ, callAll_append, callAll_single]
    show outcome (if (f b st).1 ≠ .keepon then _ else _) = _
    rcases hf b st with hstop | hans
    · have hne : (f b st).1 ≠ .keepon := by
        rw [hstop]
        decide
      rw [if_pos hne]
      exact (if_pos (decide_eq_true hstop)).symm
    · have hgo : ¬(outcome (f b st)).1 = true := by
        intro h
        rw [of_decide_eq_true h] at hans
        revert hans
        split <;> decide
      rw [if_neg hgo]
      by_cases hin : v.inRange b = true
      · have hkeep : ¬(f b st).1 ≠ .keepon := by
          rw [hans, if_pos hin]
          decide
        have hchk : ¬v.chkrange b 1 = true := by
          unfold Layout.inRange at hin
          simpa using hin
        rw [if_neg hkeep, if_neg hchk, if_pos hin]
        exact eachWord_eq hword _ _ _
      · have hskip : (f b st).1 ≠ .keepon := by
          rw [hans, if_neg hin]
          decide
        rw [if_pos hskip, if_neg hin]
        exact Prod.ext (Bool.eq_false_iff.2 hgo) rfl

theorem eachLevel_eq (hf : Answers v f) (ws : List ℕ) (n sizepb remsize : ℕ) (st : σ) :
    outcome (eachLevel v f ws n sizepb remsize st) =
      callAll f (levelRefs v ws n sizepb remsize) st := by
  induction ws generalizing n sizepb remsize st with
  | nil => rfl
  | cons w ws ih =>
    show outcome (if w = 0 then _ else _) =
      callAll f ((if w = 0 then [] else treeRefs v n remsize w) ++ levelRefs v ws (n + 1) _ _) st
    by_cases hw : w = 0
    · rw [if_pos hw, if_pos hw]
      exact ih _ _ _ _
    · rw [if_neg hw, if_neg hw, callAll_append, ← iblock_eq v hf]
      show outcome (if (iblock v f n remsize w st).1 = .stop then _ else _) = _
      by_cases hstop : (iblock v f n remsize w st).1 = .stop
      · rw [if_pos hstop]
        exact (if_pos (decide_eq_true hstop)).symm
      · rw [if_neg hstop]
        refine (ih _ _ _ _).trans (if_neg ?_).symm
        exact fun h => hstop (of_decide_eq_true h)

/-- **The walk is a run** of the function over the numbers of the inode. -/
theorem ckinode_eq (hf : Answers v f) (dp : Dinode) (st : σ) :
    outcome (ckinode v f dp st) = callAll f (blockRefs v dp) st := by
  unfold ckinode blockRefs
  by_cases hb : dp.blockless
  · rw [if_pos hb, if_pos hb]
    rfl
  · rw [if_neg hb, if_neg hb, callAll_append,
      ← eachWord_eq (fun w _ st => (callAll_single w st).symm)]
    show outcome (if (eachWord 0 (fun w _ => f w) dp.direct 0 st).1 = .stop then _ else _) = _
    by_cases hstop : (eachWord 0 (fun w _ => f w) dp.direct 0 st).1 = .stop
    · rw [if_pos hstop]
      exact (if_pos (decide_eq_true hstop)).symm
    · rw [if_neg hstop]
      refine (eachLevel_eq v hf _ _ _ _ _).trans (if_neg ?_).symm
      exact fun h => hstop (of_decide_eq_true h)

theorem ckinode_snd (hf : Answers v f) (dp : Dinode) (st : σ) :
    (ckinode v f dp st).2 = (callAll f (blockRefs v dp) st).2 :=
  congrArg Prod.snd (ckinode_eq v hf dp st)

theorem ckinode_stop (hf : Answers v f) (dp : Dinode) (st : σ) :
    (ckinode v f dp st).1 = .stop ↔ (callAll f (blockRefs v dp) st).1 = true := by
  rw [← ckinode_eq v hf]
  exact decide_eq_true_iff.symm

end

end Ext2fs.Fsck
