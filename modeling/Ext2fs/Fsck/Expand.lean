import Ext2fs.Fsck.Dups
import Ext2fs.Fsck.Pass2Keeps

/-!
# A directory is made longer

Where no record of a directory has room for a new entry, `makeentry` calls `expanddir`.  The index
`lastbn` is the size in blocks, so it is the one of the pointer behind the last block; and where an
error, or the answer to the question, takes the way back, the size goes down twice.

* `allocblk`, `freeblk` — the first free block of the map, and its return;
* `expanddir` — the call, with the reads that fail and the answer;
* `ExpandRight` — what it is for;
* `withBlock_pass2` — an expansion is the one of `pass2`, where `ginode` points;
* **`expanddir_right_iff`** — it is right only where it does nothing, and may do nothing.
-/

namespace Ext2fs.Fsck.Expand

/-- The blocks that cannot be read, and the answer to `EXPAND`. -/
structure Device where
  errs : ℕ → Bool
  preen : Bool
  expand : Bool

/-- The inode, what stands in the blocks, and the variables of the passes. -/
structure State where
  dp : Dinode
  blocks : ℕ → List DirRec
  st : Blocks

/-- The loop of `allocblk`, for `i` below a bound; 0 if no block is free. -/
def allocBelow (bound : ℤ) (st : Blocks) : ℕ × Blocks :=
  match (List.range bound.toNat).find? fun i => !st.blockmap i with
  | none => (0, st)
  | some i => (i, { st with
      blockmap := Function.update st.blockmap i true
      n_blks := st.n_blks + 1 })

/-- `allocblk` -/
def allocblk (v : Layout) (st : Blocks) : ℕ × Blocks := allocBelow (i32 v.maxfsblock - 1) st

/-- `freeblk` -/
def freeblk (v : Layout) (b : ℕ) (st : Blocks) : Blocks := (pass4check v b st).2

section

variable (E : DirEnv)

/-- The new block takes the place of a pointer, and the pointer moves on. -/
def splice (lastbn newblk : ℕ) (dp : Dinode) : Dinode :=
  { dp with
    direct := (dp.direct.set (lastbn + 1) (dp.direct.getD lastbn 0)).set lastbn newblk
    e2di_size := inossize (dp.inosize + E.v.bsize) dp.e2di_size
    e2di_nblock := u32 (dp.e2di_nblock + 1) }

/-- The inode behind the label `bad`; the size of a directory is all in `e2di_size`. -/
def unsplice (lastbn : ℕ) (dp : Dinode) : Dinode :=
  let size := u32 ((dp.e2di_size : ℤ) - E.v.bsize)
  { dp with
    direct := (dp.direct.set lastbn (dp.direct.getD (lastbn + 1) 0)).set (lastbn + 1) 0
    e2di_size := inossize (sub64 size E.v.bsize) size
    e2di_nblock := u32 ((dp.e2di_nblock : ℤ) - 1) }

/-- The label `bad`. -/
def bad (lastbn newblk : ℕ) (s : State) : State :=
  { s with dp := unsplice E lastbn s.dp, st := freeblk E.v newblk s.st }

/-- The new block gets what stood in the old one, which becomes an empty one. -/
def moveBlock (old newblk : ℕ) (blocks : ℕ → List DirRec) : ℕ → List DirRec :=
  Function.update (Function.update blocks newblk (blocks old)) old [unusedRec E.v.bsize]

/-- `expanddir` from the call of `allocblk` on, for what that has returned. -/
def withBlock (d : Device) (lastbn old : ℕ) (a : ℕ × Blocks) (s : State) : Bool × State :=
  if a.1 = 0 then (false, { s with st := a.2 })
  else
    let s : State := { s with dp := splice E lastbn a.1 s.dp, st := a.2 }
    if d.errs old ∨ d.errs a.1 then (false, bad E lastbn a.1 s)
    else
      let s : State := { s with blocks := moveBlock E old a.1 s.blocks }
      if d.preen ∨ d.expand then (true, s) else (false, bad E lastbn a.1 s)

/-- `expanddir`: whether it returns 1, and the state it leaves. -/
def expanddir (d : Device) (s : State) : Bool × State :=
  let lastbn := s.dp.inosize / E.v.bsize
  let old := s.dp.direct.getD lastbn 0
  if 11 ≤ lastbn ∨ old = 0 ∨ s.dp.inosize = 0 then (false, s)
  else withBlock E d lastbn old (allocblk E.v s.st) s

end

/-! ### What is right -/

section

variable (E : DirEnv)

/-- A directory of `n` whole blocks, all of them mapped. -/
structure WholeDir (s : State) (n : ℕ) : Prop where
  dir : s.dp.fmt = IFDIR
  one_le : 1 ≤ n
  le_ten : n ≤ 10
  size : s.dp.e2di_size = n * E.v.bsize
  length : s.dp.direct.length = NDADDR
  mapped : ∀ b ∈ s.dp.direct.take n, b ≠ 0

/-- The blocks of the directory and the free ones can be read. -/
def ReadsOk (d : Device) (s : State) : Prop :=
  ∀ b, b ∈ s.dp.direct ∨ s.st.blockmap b = false → d.errs b = false

/-- **One block more**: a block that was free, and all the entries that there were. -/
structure Expanded (n : ℕ) (s r : State) : Prop where
  block : ∃ newblk, newblk ≠ 0 ∧ s.st.blockmap newblk = false ∧
    (r.dp.direct.take (n + 1)).Perm (newblk :: s.dp.direct.take n) ∧
    r.st.blockmap = Function.update s.st.blockmap newblk true
  rest : r.dp.direct.drop (n + 1) = s.dp.direct.drop (n + 1) ∧ r.dp.indirect = s.dp.indirect
  size : r.dp.e2di_size = s.dp.e2di_size + E.v.bsize
  nblock : r.dp.e2di_nblock = s.dp.e2di_nblock + btodb E.v.bsize
  entries : ∀ b ∈ s.dp.direct.take n, ∀ x ∈ s.blocks b, x.e2d_ino ≠ 0 →
    ∃ b' ∈ r.dp.direct.take (n + 1), x ∈ r.blocks b'
  /-- `makeentry` finds room for every name. -/
  room : ∀ ino name, name.length ≤ EXT2FS_MAXNAMLEN →
    (scanBlocks E (mkentry E ino name) (r.dp.direct.filter (· ≠ 0)) (roundupBsize E r.dp.e2di_size)
      r.blocks ()).1 = true

/-- **What the call is for**: it expands the directory if it can, and otherwise changes nothing. -/
structure ExpandRight (d : Device) (n : ℕ) (s : State) (r : Bool × State) : Prop where
  expanded : r.1 = true → Expanded E n s r.2
  expands : ReadsOk d s → d.preen ∨ d.expand → r.1 = true
  undone : r.1 = false → r.2.dp.e2di_size = s.dp.e2di_size ∧ r.2.dp.direct = s.dp.direct ∧
    r.2.dp.indirect = s.dp.indirect ∧ r.2.dp.e2di_nblock = s.dp.e2di_nblock ∧
    r.2.st.blockmap = s.st.blockmap

end

/-! ### The ways through the call -/

section

variable {E : DirEnv} {d : Device} {s : State} {n : ℕ}

/-- No block that the loop looks at is free. -/
def Full (bound : ℤ) (st : Blocks) : Prop := ∀ i < bound.toNat, st.blockmap i = true

theorem allocBelow_full {bound : ℤ} {st : Blocks} (h : Full bound st) :
    allocBelow bound st = (0, st) := by
  have hnone : ((List.range bound.toNat).find? fun i => !st.blockmap i) = none := by
    refine List.find?_eq_none.2 fun i hi => ?_
    simp [h i (List.mem_range.1 hi)]
  unfold allocBelow
  rw [hnone]

/-- Otherwise a free block is marked. -/
theorem allocBelow_free {bound : ℤ} {st : Blocks} (h : ¬Full bound st) :
    st.blockmap (allocBelow bound st).1 = false ∧
      (allocBelow bound st).2.blockmap = Function.update st.blockmap (allocBelow bound st).1 true := by
  obtain ⟨i, hi, hfree⟩ : ∃ i, i < bound.toNat ∧ ¬st.blockmap i = true := by
    unfold Full at h
    push Not at h
    exact h
  unfold allocBelow
  cases hfind : (List.range bound.toNat).find? fun i => !st.blockmap i with
  | none =>
    have hnot := List.find?_eq_none.1 hfind i (List.mem_range.2 hi)
    rw [Bool.eq_false_of_not_eq_true hfree] at hnot
    exact absurd rfl hnot
  | some j =>
    have hj := List.find?_some hfind
    rw [Bool.not_eq_true'] at hj
    exact ⟨hj, rfl⟩

theorem allocBelow_le (bound : ℤ) (st : Blocks) : (allocBelow bound st).1 ≤ bound.toNat := by
  unfold allocBelow
  split
  · exact Nat.zero_le _
  next i hi => exact (List.mem_range.1 (List.mem_of_find?_eq_some hi)).le

/-- A block that `allocblk` finds is below the bound of an `int32_t`. -/
theorem allocblk_lt (v : Layout) (st : Blocks) : (allocblk v st).1 < 2 ^ 32 := by
  have hle := allocBelow_le (i32 v.maxfsblock - 1) st
  have hbound := i32_lt (v.maxfsblock : ℤ)
  exact lt_of_le_of_lt hle (by omega)

namespace WholeDir

theorem inosize (h : WholeDir E s n) : s.dp.inosize = n * E.v.bsize := by
  unfold Dinode.inosize
  rw [h.dir, if_neg (by decide), h.size]

theorem bsize_cases (v : Layout) : v.bsize = 1024 ∨ v.bsize = 2048 ∨ v.bsize = 4096 := by
  rcases v.toVolume.cases.1 with ⟨h, -⟩ | ⟨h, -⟩ | ⟨h, -⟩
  · exact Or.inl h
  · exact Or.inr (Or.inl h)
  · exact Or.inr (Or.inr h)

/-- The index is the one behind the last block. -/
theorem lastbn (h : WholeDir E s n) : s.dp.inosize / E.v.bsize = n := by
  have hpos := E.v.bsize_ge
  rw [h.inosize, Nat.mul_div_cancel _ (by omega)]

theorem inosize_pos (h : WholeDir E s n) : s.dp.inosize ≠ 0 := by
  have hpos := E.v.bsize_ge
  have hone := h.one_le
  rw [h.inosize]
  exact Nat.mul_ne_zero (by omega) (by omega)

/-- The sizes stay far below the bound of `inossize`. -/
theorem small (h : WholeDir E s n) : n * E.v.bsize + E.v.bsize < 2 ^ 31 := by
  have hten := h.le_ten
  have hle : E.v.bsize ≤ 4096 := by
    rcases bsize_cases E.v with hb | hb | hb <;> omega
  have hmul : n * E.v.bsize ≤ 10 * 4096 := Nat.mul_le_mul hten hle
  omega

/-- **No pointer behind the last block**: nothing is done. -/
theorem stays (h : WholeDir E s n) (hold : s.dp.direct.getD n 0 = 0) :
    expanddir E d s = (false, s) := by
  unfold expanddir
  rw [h.lastbn]
  exact if_pos (Or.inr (Or.inl hold))

/-- The call from the new block on. -/
theorem goes (h : WholeDir E s n) (hold : s.dp.direct.getD n 0 ≠ 0) :
    expanddir E d s = withBlock E d n (s.dp.direct.getD n 0) (allocblk E.v s.st) s := by
  have hten := h.le_ten
  have hpos := h.inosize_pos
  unfold expanddir
  rw [h.lastbn]
  exact if_neg fun hc => by omega

/-- The size that the inode has after the new block went in. -/
theorem splice_size (h : WholeDir E s n) (newblk : ℕ) :
    (splice E n newblk s.dp).e2di_size = n * E.v.bsize + E.v.bsize := by
  have hsmall := h.small
  show inossize (s.dp.inosize + E.v.bsize) s.dp.e2di_size = _
  unfold inossize
  rw [h.inosize, if_neg (by omega)]

/-- **The way back** takes a block too much. -/
theorem bad_size (h : WholeDir E s n) (newblk : ℕ) :
    (unsplice E n (splice E n newblk s.dp)).e2di_size = n * E.v.bsize - E.v.bsize := by
  have hsmall := h.small
  have hone := h.one_le
  have hle : E.v.bsize ≤ n * E.v.bsize := Nat.le_mul_of_pos_left _ (by omega)
  have hsize : u32 (((splice E n newblk s.dp).e2di_size : ℤ) - E.v.bsize) = n * E.v.bsize := by
    rw [h.splice_size]
    unfold u32
    omega
  have hsub : sub64 (n * E.v.bsize) E.v.bsize = n * E.v.bsize - E.v.bsize := by
    unfold sub64
    omega
  unfold unsplice
  dsimp only
  rw [hsize, hsub]
  unfold inossize
  rw [if_neg (by omega)]

/-- A call that takes this way is not right. -/
theorem not_right_of_bad (h : WholeDir E s n) {newblk : ℕ} {r : Bool × State} (hr : r.1 = false)
    (hdp : r.2.dp = unsplice E n (splice E n newblk s.dp)) : ¬ExpandRight E d n s r := by
  intro hright
  obtain ⟨hsize, -⟩ := hright.undone hr
  have hpos := E.v.bsize_ge
  have hone := h.one_le
  have hle : E.v.bsize ≤ n * E.v.bsize := Nat.le_mul_of_pos_left _ (by omega)
  rw [hdp, h.bad_size, h.size] at hsize
  omega

/-- Nor is one that expands the directory: the count grows by one. -/
theorem not_right_of_expands {newblk : ℕ} {r : Bool × State} (hr : r.1 = true)
    (hdp : r.2.dp = splice E n newblk s.dp) : ¬ExpandRight E d n s r := by
  intro hright
  have hcount := (hright.expanded hr).nblock
  have hle : u32 ((s.dp.e2di_nblock : ℤ) + 1) ≤ s.dp.e2di_nblock + 1 := by
    unfold u32
    omega
  have hdb : 2 ≤ btodb E.v.bsize := by
    unfold btodb
    have hge := E.v.bsize_ge
    omega
  rw [hdp] at hcount
  have hcount' : u32 ((s.dp.e2di_nblock : ℤ) + 1) = s.dp.e2di_nblock + btodb E.v.bsize := hcount
  omega

/-- **Where something is done, it is wrong.** -/
theorem not_right (h : WholeDir E s n) {old : ℕ} {a : ℕ × Blocks} (hnew : s.st.blockmap a.1 = false)
    (hmap : a.2.blockmap = Function.update s.st.blockmap a.1 true) :
    ¬ExpandRight E d n s (withBlock E d n old a s) := by
  unfold withBlock
  by_cases hzero : a.1 = 0
  · rw [if_pos hzero]
    intro hright
    -- block 0 is handed out, and stays marked
    have hsame : a.2.blockmap = s.st.blockmap := (hright.undone rfl).2.2.2.2
    rw [hmap] at hsame
    have hat := congrFun hsame a.1
    rw [Function.update_self, hnew] at hat
    exact Bool.noConfusion hat
  · rw [if_neg hzero]
    dsimp only
    split
    · exact h.not_right_of_bad rfl rfl
    · split
      · exact not_right_of_expands rfl rfl
      · exact h.not_right_of_bad rfl rfl

end WholeDir

/-- Where nothing is done, that is right unless the directory was to be expanded. -/
theorem right_of_stays : ExpandRight E d n s (false, s) ↔ ¬(ReadsOk d s ∧ (d.preen ∨ d.expand)) := by
  constructor
  · rintro h ⟨hreads, haccept⟩
    exact Bool.noConfusion (h.expands hreads haccept)
  · intro hnot
    exact ⟨fun h => Bool.noConfusion h, fun hreads haccept => (hnot ⟨hreads, haccept⟩).elim,
      fun _ => ⟨rfl, rfl, rfl, rfl, rfl⟩⟩

/-- **When `expanddir` is right**: where there is no pointer behind the last block, or no block is
found, and the directory was not to be expanded. -/
theorem expanddir_right_iff (h : WholeDir E s n) :
    ExpandRight E d n s (expanddir E d s) ↔
      (s.dp.direct.getD n 0 = 0 ∨ Full (i32 E.v.maxfsblock - 1) s.st) ∧
        ¬(ReadsOk d s ∧ (d.preen ∨ d.expand)) := by
  by_cases hold : s.dp.direct.getD n 0 = 0
  · rw [h.stays hold, right_of_stays, and_iff_right (Or.inl hold)]
  rw [h.goes hold, allocblk]
  by_cases hfull : Full (i32 E.v.maxfsblock - 1) s.st
  · have hsame : withBlock E d n (s.dp.direct.getD n 0) (0, s.st) s = (false, s) := if_pos rfl
    rw [allocBelow_full hfull, hsame, right_of_stays, and_iff_right (Or.inr hfull)]
  · obtain ⟨hnew, hmap⟩ := allocBelow_free hfull
    refine iff_of_false (h.not_right hnew hmap) ?_
    rintro ⟨hc | hc, -⟩
    · exact hold hc
    · exact hfull hc

/-! ### The expansion of pass 2 -/

/-- The size of a directory, set at a place. -/
theorem dinodeAt_inossizeAt {m : Bytes.Mem} {p : ℕ} (hdir : (dinodeAt m p).fmt = IFDIR) (size : ℕ) :
    dinodeAt (inossizeAt E p size m) p =
      { dinodeAt m p with e2di_size := inossize size (dinodeAt m p).e2di_size } := by
  have hreg : ¬(dinodeAt m p).fmt = IFREG := by
    rw [hdir]
    decide
  unfold inossizeAt inossize
  rw [if_neg hreg]
  split
  · rfl
  next hlt => rw [dinodeAt_setSize, Nat.mod_eq_of_lt (by omega)]

/-- The structure at the place after an expansion is the inode after it. -/
theorem dinodeAt_splice (E : DirEnv) (m : Bytes.Mem) (p : ℕ) {newblk lastbn : ℕ} (hdir : (dinodeAt m p).fmt = IFDIR)
    (hlast : lastbn < 11) (hnew : newblk < 2 ^ 32) :
    dinodeAt (setNblock (inossizeAt E p ((dinodeAt m p).inosize + E.v.bsize)
      (setBlock (setBlock m p (lastbn + 1) ((dinodeAt m p).direct.getD lastbn 0)) p lastbn newblk)) p
        ((dinodeAt m p).e2di_nblock + 1)) p = splice E lastbn newblk (dinodeAt m p) := by
  have hold : (dinodeAt m p).direct.getD lastbn 0 < 2 ^ 32 := by
    have hget : (dinodeAt m p).direct.getD lastbn 0 = Bytes.le 4 m (p + 40 + 4 * lastbn) := by
      show ((List.range 12).map fun k => Bytes.le 4 m (p + 40 + 4 * k)).getD lastbn 0 = _
      rw [List.getD_eq_getElem?_getD, List.getElem?_map, List.getElem?_range (by omega)]
      rfl
    rw [hget]
    exact Bytes.le_lt 4 m _
  have hptrs : dinodeAt (setBlock (setBlock m p (lastbn + 1) ((dinodeAt m p).direct.getD lastbn 0)) p lastbn newblk) p =
      { dinodeAt m p with direct := ((dinodeAt m p).direct.set (lastbn + 1)
        ((dinodeAt m p).direct.getD lastbn 0)).set lastbn newblk } := by
    rw [dinodeAt_setBlock _ p (by omega), dinodeAt_setBlock m p (by omega), Nat.mod_eq_of_lt hnew,
      Nat.mod_eq_of_lt hold]
  have hcount : ((dinodeAt m p).e2di_nblock + 1) % 2 ^ 32 = u32 ((dinodeAt m p).e2di_nblock + 1) := by
    unfold u32
    omega
  rw [dinodeAt_setNblock, dinodeAt_inossizeAt (by rw [hptrs]; exact hdir), hptrs, hcount]
  rfl

/-- **An expansion** does to the blocks and to the inode what that of `pass2` does where `ginode` points. -/
theorem withBlock_pass2 {t : Pass2State} {dir : ℕ} {a : ℕ × Blocks} (hdir : s.dp.fmt = IFDIR)
    (hdp : dinodeAt t.itab (E.ginode dir) = s.dp) (hblocks : t.blocks = s.blocks) (hnew : a.1 < 2 ^ 32)
    {lastbn old : ℕ} (hlast : lastbn = s.dp.inosize / E.v.bsize)
    (hold : old = s.dp.direct.getD lastbn 0) (hgo : ¬(11 ≤ lastbn ∨ old = 0 ∨ s.dp.inosize = 0))
    (h : (withBlock E d lastbn old a s).1 = true) :
    ∃ t', Fsck.expanddir E a.1 dir t = some t' ∧
      t'.blocks = (withBlock E d lastbn old a s).2.blocks ∧
      dinodeAt t'.itab (E.ginode dir) = (withBlock E d lastbn old a s).2.dp := by
  unfold withBlock at h ⊢
  unfold Fsck.expanddir
  dsimp only at h ⊢
  split_ifs at h with hzero herr haccept
  rw [if_neg hzero, if_neg herr, if_pos haccept, hdp, hblocks, ← hlast, ← hold, if_neg hgo, if_neg hzero]
  refine ⟨_, rfl, rfl, ?_⟩
  have hsplice := dinodeAt_splice E t.itab (E.ginode dir) (by rw [hdp]; exact hdir)
    (not_le.1 (not_or.1 hgo).1) hnew
  rw [hdp, ← hold] at hsplice
  exact hsplice

theorem expanddir_pass2 {t : Pass2State} {dir : ℕ} (hdir : s.dp.fmt = IFDIR)
    (hdp : dinodeAt t.itab (E.ginode dir) = s.dp) (hblocks : t.blocks = s.blocks)
    (h : (expanddir E d s).1 = true) :
    ∃ t', Fsck.expanddir E (allocblk E.v s.st).1 dir t = some t' ∧
      t'.blocks = (expanddir E d s).2.blocks ∧
      dinodeAt t'.itab (E.ginode dir) = (expanddir E d s).2.dp := by
  have hgo : ¬(11 ≤ s.dp.inosize / E.v.bsize ∨ s.dp.direct.getD (s.dp.inosize / E.v.bsize) 0 = 0 ∨
      s.dp.inosize = 0) := by
    intro hstop
    have hstay : expanddir E d s = (false, s) := if_pos hstop
    rw [hstay] at h
    exact Bool.noConfusion h
  have hcall : expanddir E d s = withBlock E d (s.dp.inosize / E.v.bsize)
      (s.dp.direct.getD (s.dp.inosize / E.v.bsize) 0) (allocblk E.v s.st) s := if_neg hgo
  rw [hcall] at h ⊢
  exact withBlock_pass2 hdir hdp hblocks (allocblk_lt E.v s.st) rfl rfl hgo h

end

/-! ### A directory of one block -/

/-- The root directory of a small volume, in the block 40, the last one that is in use. -/
def oneBlock : State where
  dp := ⟨IFDIR, 1024, 0, 0, 2, 2, [40, 0, 0, 0, 0, 0, 0, 0, 0, 0, 0, 0], [0, 0, 0]⟩
  blocks _ := rootRecs
  st := ⟨fun b => decide (b ≤ 40), 41, ⟨[], []⟩, rootEnv.statemap, 0, 0, 0, fun _ => 2⟩

theorem oneBlock_whole : WholeDir rootEnv oneBlock 1 where
  dir := by decide
  one_le := by decide
  le_ten := by decide
  size := by decide
  length := by decide
  mapped := by decide

/-- Where the operator refuses, nothing happens. -/
theorem oneBlock_refused :
    ExpandRight rootEnv ⟨fun _ => false, false, false⟩ 1 oneBlock
      (expanddir rootEnv ⟨fun _ => false, false, false⟩ oneBlock) :=
  (expanddir_right_iff oneBlock_whole).2 ⟨Or.inl rfl, fun h => by simpa using h.2⟩

/-- **With `preen` nothing happens either**, though there is room, and every read succeeds. -/
theorem oneBlock_not_expanded :
    WholeDir rootEnv oneBlock 1 ∧ (41 < rootVolume.maxfsblock ∧ oneBlock.st.blockmap 41 = false) ∧
      ReadsOk ⟨fun _ => false, true, false⟩ oneBlock ∧
      (expanddir rootEnv ⟨fun _ => false, true, false⟩ oneBlock).1 = false ∧
      ¬ExpandRight rootEnv ⟨fun _ => false, true, false⟩ 1 oneBlock
        (expanddir rootEnv ⟨fun _ => false, true, false⟩ oneBlock) := by
  have hreads : ReadsOk ⟨fun _ => false, true, false⟩ oneBlock := fun _ _ => rfl
  have hfalse : (expanddir rootEnv ⟨fun _ => false, true, false⟩ oneBlock).1 = false := by
    rw [oneBlock_whole.stays rfl]
  refine ⟨oneBlock_whole, by decide, hreads, hfalse, fun hright => ?_⟩
  have htrue := hright.expands hreads (Or.inl rfl)
  rw [hfalse] at htrue
  exact Bool.noConfusion htrue

end Ext2fs.Fsck.Expand
