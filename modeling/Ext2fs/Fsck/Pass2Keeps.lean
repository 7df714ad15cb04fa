import Ext2fs.Fsck.Pass2Checks

/-!
# The entries of the user in pass 2

Which entries of a well-formed directory are there when `pass2` is over, at their place and with their
name and inode: all whose inode is in use and not linked elsewhere, unless the directory has a parent
already when it is scanned, its first record has no room for `..`, and the second holds an entry of the
user whose name is longer than one byte.  The directories whose size is set, or whose `..` is put right
in the second loop, are changed through `ginode`, and have to be found in their slots.

* `Noted`, `GinodeFinds` — a directory as pass 1 has noted it, and found by `ginode`;
* `Keeps` — the entries of a block stay at their places;
* `Untouched` — what the other directories do to one;
* `run_state` — the state in which the scan comes to a record;
* `checkDir_keeps`, `checkDir_overwrites` — the first loop; `fixDotdot_keeps` — the second loop;
* **`pass2_keeps_iff`** — the entries stay exactly when none is overwritten.
-/

namespace Ext2fs.Fsck

open Bytes Splice

variable (E : DirEnv) (s : Pass2State) (D : ℕ)

/-! ### The state that pass 1 leaves -/

/-- The inode of a directory, in its slot. -/
def Pass2State.inode (d : ℕ) : Dinode := dinodeAt s.itab (E.slot d)

/-- The blocks of a directory, from the inode in its slot. -/
def Pass2State.dirBlocks (d : ℕ) : List ℕ :=
  let dp := s.inode E d
  if dp.blockless then []
  else E.tree (dp.direct ++ dp.indirect) (blocksFor dp.inosize E.v.bsize)

/-- A directory as pass 1 has noted it: its size and its blocks are those of the inode in its slot, which
has no pointer behind its end, and its size can be brought to a multiple of a block. -/
structure Noted (d : ℕ) : Prop where
  dir : (s.inode E d).fmt = IFDIR
  size : (s.inode E d).e2di_size = s.i_isize d
  behind : ∀ i < 12, blocksFor (s.i_isize d) E.v.bsize ≤ i → (s.inode E d).direct.getD i 0 = 0
  tree : s.blks d =
    E.tree ((s.inode E d).direct ++ (s.inode E d).indirect) (blocksFor (s.i_isize d) E.v.bsize)
  small : fixedSize E (s.i_isize d) < 2 ^ 31 ∨ s.i_isize d % E.v.bsize = 0

/-- What holds of all directories between the rounds of the loops. -/
structure Tidy : Prop where
  parent_le : ∀ d, s.i_parent d ≤ E.v.maxino
  noted : ∀ d ∈ E.inpsort, Noted E s d
  apart : ∀ d ∈ E.inpsort, ∀ d' ∈ E.inpsort, d ≠ d' →
    E.slot d + DINODE_READ ≤ E.slot d' ∨ E.slot d' + DINODE_READ ≤ E.slot d

/-- What pass 1 leaves: every directory is entered once, as it is noted. -/
structure Entered : Prop extends Tidy E s where
  nodup : E.inpsort.Nodup
  valid : ∀ d ∈ E.inpsort, d ≠ 0 ∧ d ≤ E.v.maxino

/-- The first loop sets the size of the directory. -/
def Resized (d : ℕ) : Prop := s.i_isize d ≠ 0 ∧ fixedSize E (s.i_isize d) ≠ s.i_isize d

/-- The second loop works on `..` of the directory. -/
def Unsettled (d : ℕ) : Prop :=
  s.i_parent d ≠ 0 ∧ s.i_isize d ≠ 0 ∧ s.i_dotdot d ≠ s.i_parent d ∧ s.i_dotdot d ≠ -1

/-- `ginode` points at the slots of the directories that pass 2 changes through it. -/
structure GinodeFinds : Prop where
  sizes : ∀ d ∈ E.inpsort, Resized E s d → E.ginode d = E.slot d
  dotdots : ∀ d ∈ E.inpsort, Unsettled (scanDirs E E.inpsort s) d → E.ginode d = E.slot d

/-- A directory that pass 1 has accepted and whose blocks are well-formed chains of records. -/
structure Accepted : Prop where
  mem : D ∈ E.inpsort
  count : (s.blks D).length = blocksFor (s.i_isize D) E.v.bsize
  inRange : ∀ b ∈ s.blks D, E.v.inRange b = true
  nodup : (s.blks D).Nodup
  alone : ∀ d ∈ E.inpsort, d ≠ D → ∀ b ∈ s.blks d, b ∉ s.blks D
  blocks_ok : ∀ b ∈ s.blks D, BlockOk E (s.blocks b)

/-- The records of a directory. -/
def Pass2State.recs : List DirRec := (s.blks D).flatMap s.blocks

/-- An entry of the user that names an inode in range, in use and not to be cleared; if it is a directory,
it has no parent and no earlier entry names it. -/
structure GoodEntry (i_parent : ℕ → ℕ) (before : List DirRec) (e : DirRec) : Prop extends e.User where
  inRange : E.InoOk e.e2d_ino
  linkable : E.Linkable i_parent e.e2d_ino
  first : E.statemap e.e2d_ino ≠ .fstate → ∀ r ∈ before, r.User → r.e2d_ino ≠ e.e2d_ino

/-- All good entries of the directory are at their places afterwards, with the same name and inode, in
blocks that are still the directory's. -/
def EntriesKept (i_parent : ℕ → ℕ) (t : Pass2State) : Prop :=
  ∀ bs b bs', s.blks D = bs ++ b :: bs' → ∀ pre e post, s.blocks b = pre ++ e :: post →
    GoodEntry E i_parent (bs.flatMap s.blocks ++ pre) e → b ∈ t.dirBlocks E D ∧
    ∃ e', StandsAt DirRec.e2d_reclen (t.blocks b) (space DirRec.e2d_reclen pre) e' ∧ e.Same e'

/-- An entry is lost: the parent is known, the first record has no room for `..`, and the second one holds
a good entry whose name is longer than one byte. -/
def Overwrites (i_parent : ℕ → ℕ) : Prop :=
  fixedSize E (s.i_isize D) < 2 ^ 31 ∧ i_parent D ≠ 0 ∧ ∃ r e post, s.recs D = r :: e :: post ∧
    r.e2d_reclen < r.firstLen + 12 ∧ GoodEntry E i_parent [r] e ∧ e.namlen ≠ 1

variable {E} {s} {D} {t u : Pass2State} {N : ℕ} {old new : List DirRec}

/-! ### Blocks -/

/-- The entries of the user stay at their places. -/
def Keeps (old new : List DirRec) : Prop :=
  ∀ o e, StandsAt DirRec.e2d_reclen old o e → e.User → ∃ e', StandsAt DirRec.e2d_reclen new o e' ∧ e.Same e'

theorem DirRec.Same.user {r e : DirRec} (h : r.Same e) (hu : r.User) : e.User :=
  ⟨h.1 ▸ hu.live, h.2 ▸ hu.ne_dot, h.2 ▸ hu.ne_dotdot⟩

theorem DirRec.Same.trans {r e x : DirRec} (h : r.Same e) (h' : e.Same x) : r.Same x :=
  ⟨h'.1.trans h.1, h'.2.trans h.2⟩

theorem Keeps.refl (l : List DirRec) : Keeps l l := fun _ e h _ => ⟨e, h, .refl e⟩

/-- A function that keeps the space of a record, and the entry of the user in it. -/
structure Gentle (E : DirEnv) (f : DirRec → Unit → Reply Unit) : Prop where
  fills : ∀ r st, r.Ok E → space DirRec.e2d_reclen (onRec f r st).out = r.e2d_reclen
  stays : ∀ r st, r.Ok E → r.User → ∃ e rest, (onRec f r st).out = e :: rest ∧ r.Same e

theorem Gentle.keeps {f : DirRec → Unit → Reply Unit} (hf : Gentle E f) (l : List DirRec) (hl : ∀ r ∈ l, r.Ok E) :
    Keeps l (sweep (onRec f) l ()).out := by
  rintro o e ⟨pre, post, rfl, rfl⟩ hu
  have hfills : ∀ r st, r.Ok E → True → space DirRec.e2d_reclen (onRec f r st).out = r.e2d_reclen ∧ True :=
    fun r st hr _ => ⟨hf.fills r st hr, trivial⟩
  have hpre : ∀ r ∈ pre, r.Ok E := fun r hr => hl r (List.mem_append_left _ hr)
  cases hstop : (sweep (onRec f) pre ()).stop with
  | true =>
    exact ⟨e, sweep_at hfills hpre trivial (fun h => by rw [hstop] at h; cases h) (fun _ => rfl), .refl e⟩
  | false =>
    obtain ⟨e', rest, hout, hsame⟩ := hf.stays e (sweep (onRec f) pre ()).st (hl e (by simp)) hu
    exact ⟨e', sweep_at hfills hpre trivial (fun _ => ⟨rest, hout⟩)
      (fun h => by rw [hstop] at h; cases h), hsame⟩

/-- `mkentry` takes an unused record, or puts the new entry behind the one that stands in the record. -/
theorem mkentry_out (ino : ℕ) (name : List UInt8) (r : DirRec) (st : Unit) :
    (onRec (mkentry E ino name) r st).out = [r] ∨
    (r.e2d_ino = 0 ∧ ∃ new : DirRec, new.e2d_reclen = r.e2d_reclen ∧
      (onRec (mkentry E ino name) r st).out = [new]) ∨
    (r.e2d_ino ≠ 0 ∧ ∃ new : DirRec, new.e2d_reclen = r.e2d_reclen - dirRecLen r.namlen ∧
      (onRec (mkentry E ino name) r st).out = [{ r with e2d_reclen := dirRecLen r.namlen }, new]) := by
  have hge := dirRecLen_ge r.namlen
  unfold onRec Reply.step mkentry
  by_cases hlive : r.e2d_ino ≠ 0
  · simp only [if_pos hlive]
    split
    · exact .inl rfl
    · rw [if_neg (show ¬dirRecLen r.namlen = 0 by omega)]
      exact .inr (.inr ⟨hlive, _, rfl, rfl⟩)
  · simp only [if_neg hlive]
    split
    · exact .inl rfl
    · exact .inr (.inl ⟨not_not.1 hlive,
        ⟨ino, r.e2d_reclen - 0, if E.ftype then E.inoType ino else 0, name, []⟩, rfl, rfl⟩)

theorem mkentry_gentle (ino : ℕ) (name : List UInt8) : Gentle E (mkentry E ino name) where
  fills r st hr := by
    rcases mkentry_out (E := E) ino name r st with h | ⟨-, new, hnew, h⟩ | ⟨hlive, new, hnew, h⟩ <;> rw [h]
    · simp
    · simp [hnew]
    · have hfit := hr.fits hlive
      simp only [space_cons, space_nil, hnew]
      omega
  stays r st hr hu := by
    rcases mkentry_out (E := E) ino name r st with h | ⟨h0, -⟩ | ⟨-, new, -, h⟩
    · exact ⟨r, [], h, .refl r⟩
    · exact absurd h0 hu.live
    · exact ⟨_, _, h, rfl, rfl⟩

/-- `chgino` changes a record that is named `..`. -/
theorem chgino_out (ino : ℕ) (name : List UInt8) (r : DirRec) (st : Unit) :
    (onRec (chgino E ino name) r st).out = [r] ∨ (r.e2d_name = name ∧
      ∃ new : DirRec, new.e2d_reclen = r.e2d_reclen ∧ (onRec (chgino E ino name) r st).out = [new]) := by
  unfold onRec Reply.step chgino
  by_cases hname : r.e2d_name ≠ name
  · rw [if_pos hname]
    exact .inl rfl
  · rw [if_neg hname]
    exact .inr ⟨not_not.1 hname,
      { r with e2d_ino := ino, e2d_type := if E.ftype then E.inoType ino else 0 }, rfl, rfl⟩

theorem chgino_gentle (ino : ℕ) : Gentle E (chgino E ino dotdotName) where
  fills r st _ := by
    rcases chgino_out (E := E) ino dotdotName r st with h | ⟨-, new, hnew, h⟩ <;> rw [h]
    · simp
    · simp [hnew]
  stays r st _ hu := by
    rcases chgino_out (E := E) ino dotdotName r st with h | ⟨hname, -⟩
    · exact ⟨r, [], h, .refl r⟩
    · exact absurd hname hu.ne_dotdot

/-! ### Sizes -/

theorem blocksFor_mul {n B : ℕ} (hB : 0 < B) : blocksFor (n * B) B = n := by
  unfold blocksFor
  rw [Nat.add_comm, Nat.mul_comm, Nat.add_mul_div_left _ _ hB, Nat.div_eq_of_lt (by omega), Nat.zero_add]

theorem blocksFor_roundup (n : ℕ) : blocksFor (roundupBsize E n) E.v.bsize = blocksFor n E.v.bsize :=
  blocksFor_mul (by have := E.v.bsize_ge; omega)

/-- A size that is a multiple of a block. -/
theorem roundup_of_mod {n : ℕ} (h : n % E.v.bsize = 0) : roundupBsize E n = n := by
  have hB := E.v.bsize_ge
  obtain ⟨k, rfl⟩ := Nat.dvd_of_mod_eq_zero h
  rw [Nat.mul_comm, roundupBsize, blocksFor_mul (by omega)]

theorem roundup_mod (n : ℕ) : roundupBsize E n % E.v.bsize = 0 := Nat.mul_mod_left _ _

theorem roundup_ge (n : ℕ) : n ≤ roundupBsize E n := by
  have hB := E.v.bsize_ge
  unfold roundupBsize blocksFor
  have := Nat.div_add_mod (n + (E.v.bsize - 1)) E.v.bsize
  have hlt := Nat.mod_lt (n + (E.v.bsize - 1)) (show 0 < E.v.bsize by omega)
  rw [Nat.mul_comm] at this
  omega

theorem roundup_lt (n : ℕ) : roundupBsize E n < n + E.v.bsize := by
  have hB := E.v.bsize_ge
  unfold roundupBsize blocksFor
  have := Nat.div_mul_le_self (n + (E.v.bsize - 1)) E.v.bsize
  omega

/-- A directory that is not empty keeps its number of blocks. -/
theorem blocksFor_fixedSize {n : ℕ} (hn : n ≠ 0) : blocksFor (fixedSize E n) E.v.bsize = blocksFor n E.v.bsize := by
  have hB := E.v.bsize_ge
  unfold fixedSize
  split
  next hmin =>
    have hmin : n < 24 := hmin
    rw [blocksFor_roundup]
    unfold blocksFor MINDIRSIZE
    rw [Nat.div_eq_of_lt_le (k := 1) (by omega) (by omega), Nat.div_eq_of_lt_le (k := 1) (by omega) (by omega)]
  · split
    · exact blocksFor_roundup n
    · rfl

theorem fixedSize_mod (n : ℕ) : fixedSize E n % E.v.bsize = 0 := by
  unfold fixedSize
  split
  · exact roundup_mod _
  · split
    · exact roundup_mod _
    next h => exact not_not.1 h

/-- A size that is a multiple of a block stays. -/
theorem fixedSize_of_mod {n : ℕ} (hn : n ≠ 0) (hmod : n % E.v.bsize = 0) : fixedSize E n = n := by
  have hB := E.v.bsize_ge
  have hle : E.v.bsize ≤ n := Nat.le_of_dvd (Nat.pos_of_ne_zero hn) (Nat.dvd_of_mod_eq_zero hmod)
  unfold fixedSize MINDIRSIZE
  rw [if_neg (by omega), if_neg (not_not.2 hmod)]

theorem fixedSize_ne_zero {n : ℕ} (hn : n ≠ 0) : fixedSize E n ≠ 0 := by
  have hB := E.v.bsize_ge
  intro hc
  have hcount := blocksFor_fixedSize (E := E) hn
  rw [hc, blocksFor, Nat.zero_add, Nat.div_eq_of_lt (by omega), blocksFor, eq_comm,
    Nat.div_eq_zero_iff_lt (by omega)] at hcount
  omega

/-- The number of blocks in a size that is a multiple of a block. -/
theorem blocksFor_of_mod {n : ℕ} (hmod : n % E.v.bsize = 0) : n / E.v.bsize = blocksFor n E.v.bsize := by
  have hB := E.v.bsize_ge
  obtain ⟨k, rfl⟩ := Nat.dvd_of_mod_eq_zero hmod
  rw [Nat.mul_div_cancel_left k (by omega), Nat.mul_comm, blocksFor_mul (by omega)]

/-! ### The inode of a directory -/

/-- The size of a directory that is set. -/
theorem inossizeAt_dir {m : Mem} {p size : ℕ} (hdir : (dinodeAt m p).fmt = IFDIR) (hsize : size < 2 ^ 31) :
    inossizeAt E p size m = setSize m p size := by
  have hreg : ¬(dinodeAt m p).fmt = IFREG := by
    rw [hdir]
    decide
  unfold inossizeAt
  rw [if_neg hreg, if_neg (not_le.2 hsize)]

section

variable {d : ℕ}

namespace Noted

theorem not_blockless (h : Noted E s d) : ¬(s.inode E d).blockless := by
  unfold Dinode.blockless
  rw [h.dir]
  rintro (hc | hc | hc | ⟨hc, -⟩) <;> exact absurd hc (by decide)

theorem inosize (h : Noted E s d) : (s.inode E d).inosize = s.i_isize d := by
  have hreg : ¬(s.inode E d).fmt = IFREG := by
    rw [h.dir]
    decide
  unfold Dinode.inosize
  rw [if_neg hreg, h.size]

/-- The blocks of the inode are those that pass 1 has noted. -/
theorem dirBlocks (h : Noted E s d) : s.dirBlocks E d = s.blks d := by
  unfold Pass2State.dirBlocks
  simp only
  rw [if_neg h.not_blockless, h.inosize, ← h.tree]

/-- A state with the same inodes and the same notes. -/
theorem congr (h : Noted E s d) (hinode : t.inode E d = s.inode E d) (hsize : t.i_isize d = s.i_isize d)
    (hblks : t.blks = s.blks) : Noted E t d where
  dir := hinode ▸ h.dir
  size := by rw [hinode, hsize, h.size]
  behind i hi hle := by
    rw [hsize] at hle
    rw [hinode]
    exact h.behind i hi hle
  tree := by rw [hblks, hinode, hsize, h.tree]
  small := hsize ▸ h.small

/-- **The walk over a directory that `ginode` finds.** -/
theorem editDir (h : Noted E s d) (hplace : E.ginode d = E.slot d) (f : DirRec → Unit → Reply Unit) :
    editDir E f d s = ((scanBlocks E f (s.blks d) (s.i_isize d : ℕ) s.blocks ()).1,
      { s with blocks := (scanBlocks E f (s.blks d) (s.i_isize d : ℕ) s.blocks ()).2.1 }) := by
  unfold Fsck.editDir
  rw [hplace]
  show (if (s.inode E d).blockless then _ else _) = _
  rw [if_neg h.not_blockless, h.tree, ← h.inosize]
  rfl

/-- A directory that pass 1 has noted has no pointer behind its end, so that it cannot grow. -/
theorem expanddir_none (h : Noted E s d) (hplace : E.ginode d = E.slot d) (hmod : s.i_isize d % E.v.bsize = 0)
    (newblk : ℕ) : expanddir E newblk d s = none := by
  have hlast := blocksFor_of_mod hmod
  have hcond : 11 ≤ s.i_isize d / E.v.bsize ∨
      (s.inode E d).direct.getD (s.i_isize d / E.v.bsize) 0 = 0 ∨ s.i_isize d = 0 := by
    rcases Nat.lt_or_ge (s.i_isize d / E.v.bsize) 11 with hlt | hge
    · exact .inr (.inl (h.behind _ (by omega) hlast.ge))
    · exact .inl hge
  unfold expanddir
  simp only
  rw [hplace]
  refine if_pos ?_
  show 11 ≤ (s.inode E d).inosize / E.v.bsize ∨
    (s.inode E d).direct.getD ((s.inode E d).inosize / E.v.bsize) 0 = 0 ∨ (s.inode E d).inosize = 0
  rw [h.inosize]
  exact hcond

/-- **`makeentry`** in a directory that `ginode` finds: its size stays, and it does not grow. -/
theorem makeentry (h : Noted E s d) (hplace : E.ginode d = E.slot d) (hmod : s.i_isize d % E.v.bsize = 0)
    (newblk ino : ℕ) (name : List UInt8) :
    makeentry E newblk d ino name s =
      if (d < FIRSTINO ∧ d ≠ ROOTINO) ∨ E.v.maxino ≤ d ∨ (ino < FIRSTINO ∧ ino < ROOTINO) ∨ E.v.maxino ≤ ino then
        (false, s)
      else Fsck.editDir E (mkentry E ino name) d s := by
  have hsize : (dinodeAt s.itab (E.ginode d)).inosize % E.v.bsize = 0 := by
    rw [hplace]
    show (s.inode E d).inosize % E.v.bsize = 0
    rw [h.inosize, hmod]
  have hafter : Noted E (Fsck.editDir E (mkentry E ino name) d s).2 d := by
    rw [h.editDir hplace]
    exact h.congr rfl rfl rfl
  have hnone : expanddir E newblk d (Fsck.editDir E (mkentry E ino name) d s).2 = none := by
    refine hafter.expanddir_none hplace ?_ newblk
    rw [h.editDir hplace]
    exact hmod
  unfold Fsck.makeentry
  refine if_congr Iff.rfl rfl ?_
  simp only
  rw [if_neg (not_not.2 hsize), hnone]
  generalize Fsck.editDir E (mkentry E ino name) d s = r
  obtain ⟨done, u⟩ := r
  cases done <;> rfl

end Noted

end

/-! ### The second loop -/

/-- An entry is made in the blocks, and in the inodes. -/
theorem editDir_frame (f : DirRec → Unit → Reply Unit) (d : ℕ) (s : Pass2State) :
    ∃ blocks, (editDir E f d s).2 = { s with blocks := blocks } := by
  unfold editDir
  simp only
  split
  · exact ⟨s.blocks, rfl⟩
  · exact ⟨_, rfl⟩

theorem makeentry_frame (newblk d ino : ℕ) (name : List UInt8) (s : Pass2State) :
    ∃ blocks itab, (makeentry E newblk d ino name s).2 = { s with blocks := blocks, itab := itab } := by
  unfold makeentry
  split
  · exact ⟨s.blocks, s.itab, rfl⟩
  simp only
  obtain ⟨u, hu⟩ : ∃ u : Pass2State, u = if (dinodeAt s.itab (E.ginode d)).inosize % E.v.bsize ≠ 0 then
      { s with itab := inossizeAt E (E.ginode d) (roundupBsize E (dinodeAt s.itab (E.ginode d)).inosize) s.itab }
      else s := ⟨_, rfl⟩
  obtain ⟨itab, hitab⟩ : ∃ itab, u = { s with itab := itab } := by
    rw [hu]
    split
    · exact ⟨_, rfl⟩
    · exact ⟨s.itab, rfl⟩
  rw [← hu]
  obtain ⟨blocks, hedit⟩ := editDir_frame (E := E) (mkentry E ino name) d u
  split
  · exact ⟨blocks, itab, by rw [hedit, hitab]⟩
  · split
    · exact ⟨blocks, itab, by rw [hedit, hitab]⟩
    next v hv =>
      obtain ⟨blocks', itab', hgrown⟩ : ∃ blocks' itab', v = { u with blocks := blocks', itab := itab' } := by
        unfold expanddir at hv
        simp only [hedit] at hv
        split at hv
        · cases hv
        · split at hv
          · cases hv
          · cases hv
            exact ⟨_, _, rfl⟩
      obtain ⟨blocks'', hlast⟩ := editDir_frame (E := E) (mkentry E ino name) d v
      exact ⟨blocks'', itab', by rw [hlast, hgrown, hitab]⟩

/-- What a round of the second loop leaves of the notes of pass 1. -/
theorem fixDotdot_notes (d newblk : ℕ) (s : Pass2State) :
    (fixDotdot E d newblk s).i_parent = s.i_parent ∧ (fixDotdot E d newblk s).i_isize = s.i_isize ∧
      ∀ x, x ≠ d → (fixDotdot E d newblk s).i_dotdot x = s.i_dotdot x := by
  have hdot : ∀ x, x ≠ d → Function.update s.i_dotdot d (s.i_parent d : ℤ) x = s.i_dotdot x :=
    fun x hx => Function.update_of_ne hx _ _
  unfold fixDotdot
  simp only
  split
  · exact ⟨rfl, rfl, fun _ _ => rfl⟩
  · split
    · exact ⟨rfl, rfl, fun _ _ => rfl⟩
    · split
      · obtain ⟨blocks, itab, h⟩ := makeentry_frame (E := E) newblk d (s.i_parent d) dotdotName
          { s with i_dotdot := Function.update s.i_dotdot d (s.i_parent d : ℤ) }
        rw [h]
        exact ⟨rfl, rfl, hdot⟩
      · unfold changeino
        obtain ⟨blocks, h⟩ := editDir_frame (E := E) (chgino E (s.i_parent d) dotdotName) d
          { s with
            i_dotdot := Function.update s.i_dotdot d (s.i_parent d : ℤ)
            lncntp := Function.update (Function.update s.lncntp (s.i_dotdot d).toNat
              (i16 (s.lncntp (s.i_dotdot d).toNat + 1))) (s.i_parent d) (i16 (Function.update s.lncntp
                (s.i_dotdot d).toNat (i16 (s.lncntp (s.i_dotdot d).toNat + 1)) (s.i_parent d) - 1)) }
        rw [h]
        exact ⟨rfl, rfl, hdot⟩

/-- What a round of the second loop does. -/
structure Edited (E : DirEnv) (d : ℕ) (s t : Pass2State) : Prop where
  blocks : t.blocks = s.blocks ∨ ∃ f, Gentle E f ∧
    t.blocks = (scanBlocks E f (s.blks d) (s.i_isize d : ℕ) s.blocks ()).2.1
  i_parent : t.i_parent = s.i_parent
  i_isize : t.i_isize = s.i_isize
  blks : t.blks = s.blks
  itab : t.itab = s.itab
  dotdot : ∀ x, x ≠ d → t.i_dotdot x = s.i_dotdot x

theorem Edited.refl (d : ℕ) (s : Pass2State) : Edited E d s s :=
  ⟨.inl rfl, rfl, rfl, rfl, rfl, fun _ _ => rfl⟩

/-- A directory that `ginode` finds is edited, with the notes of pass 1 as they were. -/
theorem Noted.edited {d : ℕ} (h : Noted E s d) (hplace : E.ginode d = E.slot d)
    {f : DirRec → Unit → Reply Unit} (hf : Gentle E f) (hblocks : t.blocks = s.blocks)
    (hparent : t.i_parent = s.i_parent) (hisize : t.i_isize = s.i_isize) (hblks : t.blks = s.blks)
    (hitab : t.itab = s.itab) (hdot : ∀ x, x ≠ d → t.i_dotdot x = s.i_dotdot x) :
    Edited E d s (Fsck.editDir E f d t).2 := by
  have hnow : Noted E t d := h.congr (by unfold Pass2State.inode; rw [hitab]) (by rw [hisize]) hblks
  rw [hnow.editDir hplace]
  exact ⟨.inr ⟨f, hf, by rw [hblocks, hblks, hisize]⟩, hparent, hisize, hblks, hitab, hdot⟩

/-- A round that does something works on `..`. -/
theorem unsettled_of_works {d : ℕ} (hskip : ¬(s.i_parent d = 0 ∨ s.i_isize d = 0))
    (hknown : ¬(s.i_dotdot d = s.i_parent d ∨ s.i_dotdot d = -1)) : Unsettled s d := by
  obtain ⟨hparent, hsize⟩ := not_or.1 hskip
  obtain ⟨hdot, hnone⟩ := not_or.1 hknown
  exact ⟨hparent, hsize, hdot, hnone⟩

/-- **A round of the second loop.** -/
theorem fixDotdot_edited (h : Tidy E s) {d : ℕ} (hd : d ∈ E.inpsort) (hmod : s.i_isize d % E.v.bsize = 0)
    (hplace : Unsettled s d → E.ginode d = E.slot d) (newblk : ℕ) :
    Edited E d s (fixDotdot E d newblk s) := by
  have hnoted := h.noted d hd
  unfold fixDotdot
  simp only
  split
  · exact .refl d s
  next hskip =>
    split
    · exact .refl d s
    next hknown =>
      replace hplace := hplace (unsettled_of_works hskip hknown)
      have hdot : ∀ x, x ≠ d → Function.update s.i_dotdot d (s.i_parent d : ℤ) x = s.i_dotdot x :=
        fun x hx => Function.update_of_ne hx _ _
      split
      · have hnow : Noted E { s with i_dotdot := Function.update s.i_dotdot d (s.i_parent d : ℤ) } d :=
          hnoted.congr rfl rfl rfl
        rw [hnow.makeentry hplace hmod]
        split
        · exact ⟨.inl rfl, rfl, rfl, rfl, rfl, hdot⟩
        · obtain ⟨hb, h1, h2, h3, h4, h5⟩ := hnoted.edited hplace (mkentry_gentle (s.i_parent d) dotdotName)
            (t := { s with i_dotdot := Function.update s.i_dotdot d (s.i_parent d : ℤ) }) rfl rfl rfl rfl rfl hdot
          exact ⟨hb, h1, h2, h3, h4, h5⟩
      · unfold changeino
        exact hnoted.edited hplace (chgino_gentle _) rfl rfl rfl rfl rfl hdot

theorem Edited.tidy {d : ℕ} (h : Edited E d s t) (hs : Tidy E s) : Tidy E t where
  parent_le := h.i_parent ▸ hs.parent_le
  noted x hx := (hs.noted x hx).congr (by unfold Pass2State.inode; rw [h.itab]) (by rw [h.i_isize]) h.blks
  apart := hs.apart

/-- The round leaves the work on other directories as it was, and none on its own. -/
theorem fixDotdot_unsettled {d x newblk : ℕ} (hx : Unsettled (fixDotdot E d newblk s) x) : Unsettled s x := by
  obtain ⟨hparent, hisize, hdot⟩ := fixDotdot_notes (E := E) d newblk s
  obtain ⟨h1, h2, h3, h4⟩ := hx
  rw [hparent] at h1 h3
  rw [hisize] at h2
  rcases eq_or_ne x d with rfl | hne
  · by_cases hskip : s.i_parent x = 0 ∨ s.i_isize x = 0
    · exact absurd hskip (not_or.2 ⟨h1, h2⟩)
    by_cases hknown : s.i_dotdot x = s.i_parent x ∨ s.i_dotdot x = -1
    · have heq : fixDotdot E x newblk s = s := (if_neg hskip).trans (if_pos hknown)
      rw [heq] at h3 h4
      exact ⟨h1, h2, h3, h4⟩
    · exact unsettled_of_works hskip hknown
  · rw [hdot x hne] at h3 h4
    exact ⟨h1, h2, h3, h4⟩

/-- The first loop, for one directory that is not empty. -/
theorem checkDir_eq {d : ℕ} (hd : s.i_isize d ≠ 0) : checkDir E d s =
    let r := scanBlocks E (pass2check E d) (s.blks d) (inossize (fixedSize E (s.i_isize d)) 0) s.blocks
      ⟨0, s.i_parent, s.i_dotdot, s.lncntp⟩
    { s with
      blocks := r.2.1
      i_parent := r.2.2.i_parent
      i_dotdot := r.2.2.i_dotdot
      lncntp := r.2.2.lncntp
      i_isize := Function.update s.i_isize d (fixedSize E (s.i_isize d))
      itab := if fixedSize E (s.i_isize d) = s.i_isize d then s.itab
        else inossizeAt E (E.ginode d) (fixedSize E (s.i_isize d)) s.itab } := if_neg hd

theorem checkDir_blks (d : ℕ) (s : Pass2State) : (checkDir E d s).blks = s.blks := by
  unfold checkDir
  split <;> rfl

/-- The round for a directory brings its size to a multiple of a block, and leaves the others. -/
theorem checkDir_isize (d x : ℕ) (s : Pass2State) :
    (checkDir E d s).i_isize x = if x = d ∧ s.i_isize d ≠ 0 then fixedSize E (s.i_isize d) else s.i_isize x := by
  by_cases hsize : s.i_isize d = 0
  · have heq : checkDir E d s = s := if_pos hsize
    rw [heq, if_neg fun hc => hc.2 hsize]
  · rw [checkDir_eq hsize]
    show Function.update s.i_isize d (fixedSize E (s.i_isize d)) x = _
    rw [Function.update_apply]
    exact if_congr (iff_self_and.2 fun _ => hsize) rfl rfl

theorem checkDir_isize_self (d : ℕ) (s : Pass2State) :
    blocksFor ((checkDir E d s).i_isize d) E.v.bsize = blocksFor (s.i_isize d) E.v.bsize := by
  rw [checkDir_isize]
  split
  next h => exact blocksFor_fixedSize h.2
  · rfl

/-- A size that is a multiple of a block stays one. -/
theorem checkDir_mod (d x : ℕ) (s : Pass2State) (h : x = d ∨ s.i_isize x % E.v.bsize = 0) :
    (checkDir E d s).i_isize x % E.v.bsize = 0 := by
  rw [checkDir_isize]
  split
  · exact fixedSize_mod _
  next hnot =>
    rcases h with rfl | h
    · have hzero : s.i_isize x = 0 := by
        by_contra hne
        exact hnot ⟨rfl, hne⟩
      rw [hzero, Nat.zero_mod]
    · exact h

/-- The round leaves the sizes to be set of other directories as they were, and none to be set of its
own. -/
theorem checkDir_resized {d x : ℕ} (hx : Resized E (checkDir E d s) x) : Resized E s x := by
  obtain ⟨hne, hfix⟩ := hx
  rw [checkDir_isize] at hne hfix
  split at hne
  next h =>
    rw [if_pos h, fixedSize_of_mod (fixedSize_ne_zero h.2) (fixedSize_mod _)] at hfix
    exact absurd rfl hfix
  next h =>
    rw [if_neg h] at hfix
    exact ⟨hne, hfix⟩

/-- **The inodes after a round of the first loop**, for a directory that `ginode` finds. -/
theorem Tidy.inode_checkDir (h : Tidy E s) {d : ℕ} (hd : d ∈ E.inpsort)
    (hplace : Resized E s d → E.ginode d = E.slot d) :
    (∀ x ∈ E.inpsort, x ≠ d → (checkDir E d s).inode E x = s.inode E x) ∧
    (s.i_isize d ≠ 0 →
      (checkDir E d s).inode E d = { s.inode E d with e2di_size := fixedSize E (s.i_isize d) }) := by
  have hnoted := h.noted d hd
  by_cases hsize : s.i_isize d = 0
  · have heq : checkDir E d s = s := if_pos hsize
    rw [heq]
    exact ⟨fun _ _ _ => rfl, fun hc => absurd hsize hc⟩
  rw [checkDir_eq hsize]
  unfold Pass2State.inode
  simp only
  by_cases hsame : fixedSize E (s.i_isize d) = s.i_isize d
  · rw [if_pos hsame]
    refine ⟨fun _ _ _ => rfl, fun _ => ?_⟩
    have hold : (dinodeAt s.itab (E.slot d)).e2di_size = s.i_isize d := hnoted.size
    rw [hsame, ← hold]
  · have hlt : fixedSize E (s.i_isize d) < 2 ^ 31 :=
      hnoted.small.resolve_right fun hmod => hsame (fixedSize_of_mod hsize hmod)
    rw [if_neg hsame, hplace ⟨hsize, hsame⟩, inossizeAt_dir hnoted.dir hlt]
    refine ⟨fun x hx hne => ?_, fun _ => ?_⟩
    · have hapart := h.apart d hd x hx hne.symm
      exact dinodeAt_apart (by unfold DINODE_READ at *; omega)
    · rw [dinodeAt_setSize, Nat.mod_eq_of_lt (by omega)]

/-- What a round of the first loop does to the parents. -/
theorem checkDir_moves (d : ℕ) (s : Pass2State) :
    (∀ x, (checkDir E d s).i_parent x = s.i_parent x ∨
      (s.i_parent x = 0 ∧ (checkDir E d s).i_parent x = d)) ∧
    ∀ x, x ≠ d → (checkDir E d s).i_dotdot x = s.i_dotdot x := by
  by_cases hd : s.i_isize d = 0
  · have h : checkDir E d s = s := if_pos hd
    rw [h]
    exact ⟨fun _ => .inl rfl, fun _ _ => rfl⟩
  · have h := scanBlocks_state (E := E) (f := pass2check E d) (Moves.refl d) (fun _ _ _ => Moves.trans)
      (fun r st => pass2check_moves r st) (s.blks d) (inossize (fixedSize E (s.i_isize d)) 0) s.blocks
      ⟨0, s.i_parent, s.i_dotdot, s.lncntp⟩
    rw [checkDir_eq hd]
    exact ⟨h.parent, h.dotdot⟩

/-- What the rounds for other directories leave of one. -/
structure Untouched (D : ℕ) (s t : Pass2State) : Prop where
  blocks : ∀ b ∈ s.blks D, t.blocks b = s.blocks b
  blks : t.blks = s.blks
  i_isize : t.i_isize D = s.i_isize D
  dotdot : t.i_dotdot D = s.i_dotdot D
  parent : s.i_parent D ≠ 0 → t.i_parent D = s.i_parent D

theorem Untouched.refl (D : ℕ) (s : Pass2State) : Untouched D s s :=
  ⟨fun _ _ => rfl, rfl, rfl, rfl, fun _ => rfl⟩

theorem Untouched.trans (h : Untouched D s t) (h' : Untouched D t u) : Untouched D s u where
  blocks b hb := (h'.blocks b (h.blks ▸ hb)).trans (h.blocks b hb)
  blks := h'.blks.trans h.blks
  i_isize := h'.i_isize.trans h.i_isize
  dotdot := h'.dotdot.trans h.dotdot
  parent hp := (h'.parent (by rw [h.parent hp]; exact hp)).trans (h.parent hp)

theorem checkDir_tidy (h : Tidy E s) {d : ℕ} (hd : d ∈ E.inpsort) (hle : d ≤ E.v.maxino)
    (hplace : Resized E s d → E.ginode d = E.slot d) : Tidy E (checkDir E d s) := by
  obtain ⟨hpar, -⟩ := checkDir_moves (E := E) d s
  obtain ⟨hother, hself⟩ := h.inode_checkDir hd hplace
  refine ⟨fun x => ?_, fun x hx => ?_, h.apart⟩
  · rcases hpar x with h1 | ⟨-, h1⟩ <;> rw [h1]
    · exact h.parent_le x
    · exact hle
  have hnoted := h.noted x hx
  by_cases hround : x = d ∧ s.i_isize d ≠ 0
  · obtain ⟨rfl, hsize⟩ := hround
    have hfix : (checkDir E x s).i_isize x = fixedSize E (s.i_isize x) := by
      rw [checkDir_isize, if_pos ⟨rfl, hsize⟩]
    have hinode := hself hsize
    refine ⟨?_, ?_, fun i hi hlast => ?_, ?_, .inr (hfix ▸ fixedSize_mod _)⟩
    · rw [hinode]
      exact hnoted.dir
    · rw [hinode, hfix]
    · rw [hfix, blocksFor_fixedSize hsize] at hlast
      rw [hinode]
      exact hnoted.behind i hi hlast
    · rw [hinode, hfix, blocksFor_fixedSize hsize, checkDir_blks]
      exact hnoted.tree
  · refine hnoted.congr ?_ ?_ (checkDir_blks d s)
    · by_cases hne : x = d
      · have hzero : s.i_isize d = 0 := by
          by_contra hc
          exact hround ⟨hne, hc⟩
        have heq : checkDir E d s = s := if_pos hzero
        rw [heq]
      · exact hother x hx hne
    · rw [checkDir_isize, if_neg hround]

/-- A round for another directory. -/
theorem checkDir_untouched {d : ℕ} (hne : d ≠ D) (halone : ∀ b ∈ s.blks d, b ∉ s.blks D) :
    Untouched D s (checkDir E d s) := by
  obtain ⟨hpar, hdot⟩ := checkDir_moves (E := E) d s
  refine ⟨fun b hb => ?_, checkDir_blks d s, ?_, hdot D hne.symm, fun hp => ?_⟩
  · by_cases hsize : s.i_isize d = 0
    · have heq : checkDir E d s = s := if_pos hsize
      rw [heq]
    · rw [checkDir_eq hsize]
      exact scanBlocks_frame (fun hc => halone b hc hb) _ _ _
  · rw [checkDir_isize, if_neg fun hc => hne hc.1.symm]
  · exact (hpar D).resolve_right fun h => hp h.1

theorem Edited.untouched {d : ℕ} (h : Edited E d s t) (hne : d ≠ D) (halone : ∀ b ∈ s.blks d, b ∉ s.blks D) :
    Untouched D s t where
  blocks b hb := by
    rcases h.blocks with h1 | ⟨f, -, h1⟩ <;> rw [h1]
    exact scanBlocks_frame (fun hc => halone b hc hb) _ _ _
  blks := h.blks
  i_isize := by rw [h.i_isize]
  dotdot := h.dotdot D hne.symm
  parent _ := by rw [h.i_parent]

/-- A directory that is not `D`, and has no block of it. -/
structure Other (E : DirEnv) (s : Pass2State) (D d : ℕ) : Prop where
  ne : d ≠ D
  mem : d ∈ E.inpsort
  le : d ≤ E.v.maxino
  alone : ∀ b ∈ s.blks d, b ∉ s.blks D

theorem Other.congr {d : ℕ} (h : Other E s D d) (hblks : t.blks = s.blks) : Other E t D d :=
  ⟨h.ne, h.mem, h.le, by rw [hblks]; exact h.alone⟩

/-- The rounds of the first loop for other directories. -/
theorem scanDirs_untouched {ds : List ℕ} (hds : ∀ d ∈ ds, Other E s D d)
    (hplace : ∀ d ∈ ds, Resized E s d → E.ginode d = E.slot d) (h : Tidy E s) :
    Untouched D s (scanDirs E ds s) ∧ Tidy E (scanDirs E ds s) := by
  induction ds generalizing s with
  | nil => exact ⟨.refl D s, h⟩
  | cons d ds ih =>
    obtain ⟨hd, hrest⟩ := List.forall_mem_cons.1 hds
    obtain ⟨hplace, hplaces⟩ := List.forall_mem_cons.1 hplace
    have hu := checkDir_untouched (E := E) hd.ne hd.alone
    obtain ⟨h1, h2⟩ := ih (s := checkDir E d s) (fun x hx => (hrest x hx).congr hu.blks)
      (fun x hx hr => hplaces x hx (checkDir_resized hr)) (checkDir_tidy h hd.mem hd.le hplace)
    exact ⟨hu.trans h1, h2⟩

/-- The sizes after the first loop. -/
theorem scanDirs_mod {ds : List ℕ} {x : ℕ} (h : x ∈ ds ∨ s.i_isize x % E.v.bsize = 0) :
    (scanDirs E ds s).i_isize x % E.v.bsize = 0 := by
  induction ds generalizing s with
  | nil => exact h.resolve_left List.not_mem_nil
  | cons d ds ih =>
    refine ih (s := checkDir E d s) ?_
    rcases h with h | h
    · rcases List.mem_cons.1 h with rfl | h
      · exact .inr (checkDir_mod x x s (.inl rfl))
      · exact .inl h
    · exact .inr (checkDir_mod d x s (.inr h))

/-- The rounds of the second loop for other directories. -/
theorem fixDotdots_untouched {ds : List ℕ} (alloc : ℕ → ℕ) (hds : ∀ d ∈ ds, Other E s D d)
    (hmod : ∀ d ∈ ds, s.i_isize d % E.v.bsize = 0)
    (hplace : ∀ d ∈ ds, Unsettled s d → E.ginode d = E.slot d) (h : Tidy E s) :
    Untouched D s (fixDotdots E alloc ds s) ∧ Tidy E (fixDotdots E alloc ds s) := by
  induction ds generalizing s with
  | nil => exact ⟨.refl D s, h⟩
  | cons d ds ih =>
    obtain ⟨hd, hrest⟩ := List.forall_mem_cons.1 hds
    obtain ⟨hplace, hplaces⟩ := List.forall_mem_cons.1 hplace
    obtain ⟨hmod, hmods⟩ := List.forall_mem_cons.1 hmod
    have he := fixDotdot_edited h hd.mem hmod hplace (alloc d)
    have hu := he.untouched hd.ne hd.alone
    obtain ⟨h1, h2⟩ := ih (s := fixDotdot E d (alloc d) s) (fun x hx => (hrest x hx).congr hu.blks)
      (fun x hx => by rw [he.i_isize]; exact hmods x hx)
      (fun x hx hr => hplaces x hx (fixDotdot_unsettled hr)) (he.tidy h)
    exact ⟨hu.trans h1, h2⟩

/-! ### The scan of the directory -/

section

variable {l : List DirRec} {r : DirRec} {st : Chk}

/-- Behind the second entry a parent is set only of what the entries of the user name. -/
theorem later_run (hl : ∀ r ∈ l, r.Ok E) (hk : 2 ≤ st.entryno) :
    2 ≤ (sweep (onRec (pass2check E N)) l st).st.entryno ∧
    (sweep (onRec (pass2check E N)) l st).st.i_dotdot = st.i_dotdot ∧
    ∀ x, (sweep (onRec (pass2check E N)) l st).st.i_parent x = st.i_parent x ∨
      ∃ r ∈ l, r.User ∧ r.e2d_ino = x := by
  induction l generalizing st with
  | nil => exact ⟨hk, rfl, fun _ => .inl rfl⟩
  | cons r l ih =>
    obtain ⟨hr, hl⟩ := List.forall_mem_cons.1 hl
    obtain ⟨h1, h2, h3, -⟩ := pass2check_later (N := N) hr hk
    obtain ⟨h4, h5, h6⟩ := ih hl h1
    rw [sweep_go l rfl]
    refine ⟨h4, h5.trans h2, fun x => ?_⟩
    rcases h6 x with h | ⟨r', hr', h⟩
    · rcases h3 x with h' | ⟨hu, hx⟩
      · exact .inl (h.trans h')
      · exact .inr ⟨r, List.mem_cons_self, hu, hx.symm⟩
    · exact .inr ⟨r', List.mem_cons_of_mem r hr', h⟩

/-- **The state in which the scan comes to a record**: how many entries it has counted, and whose parents
it has set. -/
theorem run_state (hl : ∀ r ∈ l, r.Ok E) (hnum : N ≠ 0) (hk : st.entryno = 0) :
    (l = [] ∨ (∃ r, l = [r] ∧ r.e2d_reclen < r.firstLen + 12 ∧
        (sweep (onRec (pass2check E N)) l st).st.entryno = 1 ∧
        (sweep (onRec (pass2check E N)) l st).st.i_parent = st.i_parent) ∨
      2 ≤ (sweep (onRec (pass2check E N)) l st).st.entryno) ∧
    ∀ x, (sweep (onRec (pass2check E N)) l st).st.i_parent x = st.i_parent x ∨
      ∃ r ∈ l, r.User ∧ r.e2d_ino = x := by
  cases l with
  | nil => exact ⟨.inl rfl, fun _ => .inl rfl⟩
  | cons r l =>
    obtain ⟨hr, hl⟩ := List.forall_mem_cons.1 hl
    obtain ⟨h1, h2, -⟩ := pass2check_first (N := N) hr hnum hk
    rw [sweep_go l rfl]
    by_cases hroom : r.e2d_reclen < r.firstLen + 12
    · rw [if_pos hroom] at h1
      cases l with
      | nil => exact ⟨.inr (.inl ⟨r, rfl, hroom, h1, h2⟩), fun x => .inl (congrFun h2 x)⟩
      | cons r' l =>
        obtain ⟨hr', hl⟩ := List.forall_mem_cons.1 hl
        obtain ⟨h3, h4, -⟩ := pass2check_second (N := N) hr' h1
        obtain ⟨h5, -, h6⟩ := later_run (N := N) hl h3.ge
        rw [sweep_go l rfl]
        refine ⟨.inr (.inr h5), fun x => ?_⟩
        rcases h6 x with h | ⟨q, hq, h⟩
        · exact .inl (by rw [h, h4, h2])
        · exact .inr ⟨q, by simp [hq], h⟩
    · rw [if_neg hroom] at h1
      obtain ⟨h5, -, h6⟩ := later_run (N := N) hl h1.ge
      refine ⟨.inr (.inr h5), fun x => ?_⟩
      rcases h6 x with h | ⟨q, hq, h⟩
      · exact .inl (by rw [h, h2])
      · exact .inr ⟨q, by simp [hq], h⟩

/-- What one call leaves of a good entry that is not written over. -/
theorem good_stays {i_parent : ℕ → ℕ} (hl : ∀ r ∈ l, r.Ok E) (hnum : N ≠ 0) (hk : st.entryno = 0)
    (hst : st.i_parent = i_parent) (hr : r.Ok E) (hgood : GoodEntry E i_parent l r)
    (hover : ∀ q, l = [q] → q.e2d_reclen < q.firstLen + 12 → r.namlen = 1 ∨ i_parent N = 0) :
    ∃ e rest, (onRec (pass2check E N) r (sweep (onRec (pass2check E N)) l st).st).out = e :: rest ∧
      r.Same e := by
  obtain ⟨hcount, hpar⟩ := run_state (N := N) hl hnum hk
  rcases hcount with rfl | ⟨q, hq, hroom, h1, h2⟩ | h2
  · exact (pass2check_first (N := N) hr hnum hk).2.2 hgood.toUser hgood.inRange
  · have hkeep := (pass2check_second (N := N) hr h1).2.2.1 hgood.toUser
      (by rw [h2, hst]; exact hover q hq hroom)
    exact ⟨r, [], hkeep, .refl r⟩
  · refine (pass2check_later (N := N) hr h2).2.2.2 hgood.toUser hgood.inRange ?_
    rcases hgood.linkable with hfile | ⟨hdir, hnone⟩
    · exact .inl hfile
    · refine .inr ⟨hdir, ?_⟩
      rcases hpar r.e2d_ino with h | ⟨q, hq, hu, hino⟩
      · rw [h, hst]
        exact hnone
      · refine absurd hino (hgood.first ?_ q hq hu)
        rcases hdir with h | h <;> rw [h] <;> decide

end

/-! ### The first loop, for the directory itself -/

/-- What one call keeps: the space of the record, the order of the records, and the bound on the parent. -/
theorem pass2check_step (hnum : N ≠ 0) (hle : N ≤ E.v.maxino) (r : DirRec) (st : Chk) (hr : r.Ok E)
    (hpar : st.i_parent N ≤ E.v.maxino) :
    ((∀ x ∈ (onRec (pass2check E N) r st).out, x.Ok E) ∧
      (onRec (pass2check E N) r st).st.i_parent N ≤ E.v.maxino) ∧
    (space DirRec.e2d_reclen (onRec (pass2check E N) r st).out = r.e2d_reclen ∧
      (onRec (pass2check E N) r st).st.i_parent N ≤ E.v.maxino) := by
  obtain ⟨h1, h2⟩ := pass2check_sound hr hnum hle hpar
  have h3 : (onRec (pass2check E N) r st).st.i_parent N ≤ E.v.maxino := by
    rcases (pass2check_moves (E := E) (N := N) r st).parent N with h | ⟨-, h⟩
    · exact h.trans_le hpar
    · exact h.trans_le hle
  exact ⟨⟨h1, h3⟩, h2, h3⟩

/-- The directory as its scan begins. -/
structure Ready (E : DirEnv) (s : Pass2State) (D : ℕ) : Prop where
  valid : D ≠ 0 ∧ D ≤ E.v.maxino
  parent_le : s.i_parent D ≤ E.v.maxino
  count : (s.blks D).length = blocksFor (s.i_isize D) E.v.bsize
  inRange : ∀ b ∈ s.blks D, E.v.inRange b = true
  nodup : (s.blks D).Nodup
  blocks_ok : ∀ b ∈ s.blks D, BlockOk E (s.blocks b)

section

variable {b : ℕ} {bs bs' : List ℕ} {pre post : List DirRec} {e : DirRec}

/-- The state in which a scan begins. -/
def Pass2State.chk (s : Pass2State) : Chk := ⟨0, s.i_parent, s.i_dotdot, s.lncntp⟩

theorem Ready.isize_ne (h : Ready E s D) (hb : b ∈ s.blks D) : s.i_isize D ≠ 0 := by
  intro hc
  have hlen := h.count
  have hB := E.v.bsize_ge
  rw [hc, blocksFor, Nat.zero_add, Nat.div_eq_of_lt (by omega), List.length_eq_zero_iff] at hlen
  rw [hlen] at hb
  exact absurd hb List.not_mem_nil

/-- **The scan of the directory**, when its size is not too large for `inossize`. -/
theorem Ready.scan (h : Ready E s D) (hsize : s.i_isize D ≠ 0) (hbig : fixedSize E (s.i_isize D) < 2 ^ 31) :
    (checkDir E D s).i_parent = (sweep (onRec (pass2check E D)) (s.recs D) s.chk).st.i_parent ∧
    (checkDir E D s).i_dotdot = (sweep (onRec (pass2check E D)) (s.recs D) s.chk).st.i_dotdot ∧
    ∀ bs b bs', s.blks D = bs ++ b :: bs' → (checkDir E D s).blocks b = (sweep (onRec (pass2check E D)) (s.blocks b)
      (sweep (onRec (pass2check E D)) (bs.flatMap s.blocks) s.chk).st).out := by
  have hround : fixedSize E (s.i_isize D) = (s.blks D).length * E.v.bsize := by
    rw [h.count, ← blocksFor_fixedSize hsize]
    exact (roundup_of_mod (fixedSize_mod _)).symm
  have hfs : inossize (fixedSize E (s.i_isize D)) 0 = fixedSize E (s.i_isize D) := if_neg (by omega)
  have hall : ((inossize (fixedSize E (s.i_isize D)) 0 : ℕ) : ℤ) = (s.blks D).length * E.v.bsize := by
    rw [hfs, hround]
    push_cast
    ring
  obtain ⟨h1, h2⟩ := scanBlocks_go (f := pass2check E D) (fun _ _ => rfl) h.inRange h.blocks_ok h.nodup hall s.chk
  rw [checkDir_eq hsize]
  exact ⟨congrArg Chk.i_parent h1, congrArg Chk.i_dotdot h1, h2⟩

/-- A directory whose size is too large for `inossize` is not scanned. -/
theorem checkDir_huge (hbig : ¬fixedSize E (s.i_isize D) < 2 ^ 31) : (checkDir E D s).blocks = s.blocks := by
  by_cases hsize : s.i_isize D = 0
  · have heq : checkDir E D s = s := if_pos hsize
    rw [heq]
  · have hzero : inossize (fixedSize E (s.i_isize D)) 0 = 0 := if_pos (not_lt.1 hbig)
    rw [checkDir_eq hsize, hzero]
    show (scanBlocks E (pass2check E D) (s.blks D) ((0 : ℕ) : ℤ) s.blocks s.chk).2.1 = s.blocks
    rw [scanBlocks_none (le_of_eq Nat.cast_zero)]

/-- The records in front of one in a block are those of the blocks before and those of the block. -/
theorem Ready.front_ok (h : Ready E s D) (hbs : s.blks D = bs ++ b :: bs') (hb : s.blocks b = pre ++ e :: post) :
    (∀ r ∈ bs.flatMap s.blocks, r.Ok E) ∧ (∀ r ∈ pre, r.Ok E) ∧ e.Ok E := by
  have hmem : b ∈ s.blks D := by
    rw [hbs]
    simp
  have hok := (h.blocks_ok b hmem).recs_ok
  rw [hb] at hok
  refine ⟨fun r hr => ?_, fun r hr => hok r (by simp [hr]), hok e (by simp)⟩
  obtain ⟨c, hc, hr⟩ := List.mem_flatMap.1 hr
  exact (h.blocks_ok c (by rw [hbs]; simp [hc])).recs_ok r hr

/-- The bound on the parent holds wherever the scan is. -/
theorem Ready.parent_run (h : Ready E s D) {l : List DirRec} (hl : ∀ r ∈ l, r.Ok E) :
    (sweep (onRec (pass2check E D)) l s.chk).st.i_parent D ≤ E.v.maxino :=
  (sweep_all (p := fun r => r.Ok E) (I := fun st : Chk => st.i_parent D ≤ E.v.maxino)
    (fun r st hr hp => (pass2check_step h.valid.1 h.valid.2 r st hr hp).1) hl h.parent_le).2

/-- Blocks stay well formed. -/
theorem checkDir_blocks_ok (h : Ready E s D) (hb : b ∈ s.blks D) : BlockOk E ((checkDir E D s).blocks b) := by
  have hsize := h.isize_ne hb
  by_cases hbig : fixedSize E (s.i_isize D) < 2 ^ 31
  · obtain ⟨bs, bs', hbs⟩ := List.append_of_mem hb
    have hok := h.blocks_ok b hb
    have hfront : ∀ r ∈ bs.flatMap s.blocks, r.Ok E := by
      intro r hr
      obtain ⟨c, hc, hr⟩ := List.mem_flatMap.1 hr
      exact (h.blocks_ok c (by rw [hbs]; simp [hc])).recs_ok r hr
    rw [(h.scan hsize hbig).2.2 bs b bs' hbs]
    refine ⟨(sweep_all (p := fun r => r.Ok E) (I := fun st : Chk => st.i_parent D ≤ E.v.maxino)
      (fun r st hr hp => (pass2check_step h.valid.1 h.valid.2 r st hr hp).1) hok.recs_ok
      (h.parent_run hfront)).1, ?_⟩
    rw [space_sweep (p := fun r => r.Ok E) (I := fun st : Chk => st.i_parent D ≤ E.v.maxino)
      (fun r st hr hp => (pass2check_step h.valid.1 h.valid.2 r st hr hp).2) hok.recs_ok (h.parent_run hfront)]
    exact hok.fills
  · rw [checkDir_huge hbig]
    exact h.blocks_ok b hb

/-- **A good entry stays in the first loop**, unless `..` is put over it. -/
theorem checkDir_keeps (h : Ready E s D) (hbs : s.blks D = bs ++ b :: bs') (hb : s.blocks b = pre ++ e :: post)
    (hgood : GoodEntry E s.i_parent (bs.flatMap s.blocks ++ pre) e) (hover : ¬Overwrites E s D s.i_parent) :
    ∃ e', StandsAt DirRec.e2d_reclen ((checkDir E D s).blocks b) (space DirRec.e2d_reclen pre) e' ∧ e.Same e' := by
  have hmem : b ∈ s.blks D := by
    rw [hbs]
    simp
  have hsize := h.isize_ne hmem
  by_cases hbig : fixedSize E (s.i_isize D) < 2 ^ 31
  · obtain ⟨hfront, hpre, he⟩ := h.front_ok hbs hb
    have hgo : ∀ l (st : Chk), (sweep (onRec (pass2check E D)) l st).stop = false :=
      sweep_goes fun _ _ => rfl
    have hrun : sweep (onRec (pass2check E D)) (bs.flatMap s.blocks ++ pre) s.chk = _ :=
      sweep_append pre (hgo _ _)
    obtain ⟨e', rest, hout, hsame⟩ := good_stays
      (fun r hr => (List.mem_append.1 hr).elim (hfront r) (hpre r)) h.valid.1 (rfl : s.chk.entryno = 0) rfl he hgood fun q hq hroom => by
        by_contra hc
        obtain ⟨hlen, hpar⟩ := not_or.1 hc
        refine hover ⟨hbig, hpar, q, e, post ++ bs'.flatMap s.blocks, ?_, hroom, hq ▸ hgood, hlen⟩
        rw [Pass2State.recs, hbs, List.flatMap_append, List.flatMap_cons, hb, List.append_assoc,
          ← List.append_assoc, hq]
        rfl
    rw [hrun] at hout
    refine ⟨e', ?_, hsame⟩
    rw [(h.scan hsize hbig).2.2 bs b bs' hbs, hb]
    exact sweep_at (p := fun r => r.Ok E) (I := fun st : Chk => st.i_parent D ≤ E.v.maxino)
      (fun r st hr hp => (pass2check_step h.valid.1 h.valid.2 r st hr hp).2) hpre (h.parent_run hfront)
      (fun _ => ⟨rest, hout⟩) fun hc => by rw [hgo] at hc; cases hc
  · rw [checkDir_huge hbig]
    exact ⟨e, ⟨pre, post, hb, rfl⟩, .refl e⟩

end

/-! ### The second loop, for the directory itself -/

/-- **The entries of the user stay in the second loop.** -/
theorem fixDotdot_keeps (h : Tidy E s) (hD : D ∈ E.inpsort) (hmod : s.i_isize D % E.v.bsize = 0)
    (hplace : Unsettled s D → E.ginode D = E.slot D) (newblk : ℕ) (hnd : (s.blks D).Nodup)
    (hcount : (s.blks D).length = blocksFor (s.i_isize D) E.v.bsize)
    (hrange : ∀ b ∈ s.blks D, E.v.inRange b = true) (hok : ∀ b ∈ s.blks D, BlockOk E (s.blocks b)) (b : ℕ) :
    Keeps (s.blocks b) ((fixDotdot E D newblk s).blocks b) := by
  rcases (fixDotdot_edited h hD hmod hplace newblk).blocks with heq | ⟨f, hf, heq⟩ <;> rw [heq]
  · exact .refl _
  · have hfs : ((s.i_isize D : ℕ) : ℤ) = (s.blks D).length * E.v.bsize := by
      rw [hcount, ← Nat.cast_mul]
      exact congrArg Nat.cast (roundup_of_mod hmod).symm
    exact scanBlocks_rel Keeps.refl (fun l _ hl => hf.keeps l hl.recs_ok) hrange hok hnd hfs () b

/-! ### Pass 2 -/

theorem Untouched.flatMap (h : Untouched D s t) {l : List ℕ} (hl : ∀ b ∈ l, b ∈ s.blks D) :
    l.flatMap t.blocks = l.flatMap s.blocks := List.flatMap_congr fun b hb => h.blocks b (hl b hb)

theorem Untouched.recs (h : Untouched D s t) : t.recs D = s.recs D := by
  unfold Pass2State.recs
  rw [h.blks]
  exact h.flatMap fun _ hb => hb

/-- The directory is as pass 1 has left it when its scan begins. -/
theorem Accepted.ready (hD : Accepted E s D) (hentered : Entered E s) (h : Untouched D s t) (ht : Tidy E t) :
    Ready E t D where
  valid := hentered.valid D hD.mem
  parent_le := ht.parent_le D
  count := by rw [h.blks, h.i_isize, hD.count]
  inRange := h.blks ▸ hD.inRange
  nodup := h.blks ▸ hD.nodup
  blocks_ok b hb := by
    rw [h.blks] at hb
    rw [h.blocks b hb]
    exact hD.blocks_ok b hb

/-- The directory is in order when the second loop comes to it. -/
theorem Ready.fixed (h : Ready E s D) (hsize : blocksFor (t.i_isize D) E.v.bsize = blocksFor (s.i_isize D) E.v.bsize)
    (hblks : t.blks = s.blks) (hblocks : ∀ b ∈ s.blks D, t.blocks b = (checkDir E D s).blocks b) (ht : Tidy E t)
    (hD : D ∈ E.inpsort) (hmod : t.i_isize D % E.v.bsize = 0) (hplace : Unsettled t D → E.ginode D = E.slot D)
    (newblk b : ℕ) : Keeps (t.blocks b) ((fixDotdot E D newblk t).blocks b) := by
  refine fixDotdot_keeps ht hD hmod hplace newblk (hblks ▸ h.nodup) (by rw [hblks, h.count, hsize])
    (hblks ▸ h.inRange) (fun b hb => ?_) b
  rw [hblks] at hb
  rw [hblocks b hb]
  exact checkDir_blocks_ok h hb

/-- The pass as a directory sees it: `s₁` when its scan begins, `s₂` behind it, `s₄` and `s₅` around its
round of the second loop, and `s₆` at the end. -/
structure Stages (E : DirEnv) (s : Pass2State) (D newblk : ℕ) (s₁ s₂ s₄ s₅ s₆ : Pass2State) : Prop where
  before : Untouched D s s₁
  ready : Ready E s₁ D
  scanned : s₂ = checkDir E D s₁
  between : Untouched D s₂ s₄
  tidy : Tidy E s₄
  sized : s₄.i_isize D % E.v.bsize = 0
  place : Unsettled s₄ D → E.ginode D = E.slot D
  fixed : s₅ = fixDotdot E D newblk s₄
  after : Untouched D s₅ s₆
  final : Tidy E s₆

namespace Stages

variable {newblk : ℕ} {s₁ s₂ s₄ s₅ s₆ : Pass2State}

theorem blks₂ (h : Stages E s D newblk s₁ s₂ s₄ s₅ s₆) : s₂.blks = s.blks := by
  rw [h.scanned, checkDir_blks, h.before.blks]

theorem mid (h : Stages E s D newblk s₁ s₂ s₄ s₅ s₆) {b : ℕ} (hb : b ∈ s.blks D) : s₄.blocks b = s₂.blocks b :=
  h.between.blocks b (by rwa [h.blks₂])

theorem blks₅ (h : Stages E s D newblk s₁ s₂ s₄ s₅ s₆) (hD : D ∈ E.inpsort) : s₅.blks = s.blks := by
  rw [h.fixed, (fixDotdot_edited h.tidy hD h.sized h.place newblk).blks, h.between.blks, h.blks₂]

theorem last (h : Stages E s D newblk s₁ s₂ s₄ s₅ s₆) (hD : D ∈ E.inpsort) {b : ℕ} (hb : b ∈ s.blks D) :
    s₆.blocks b = s₅.blocks b :=
  h.after.blocks b (by rwa [h.blks₅ hD])

/-- Any other good entry is. -/
theorem kept (h : Stages E s D newblk s₁ s₂ s₄ s₅ s₆) (hD : D ∈ E.inpsort)
    (hover : ¬Overwrites E s₁ D s₁.i_parent) : EntriesKept E s D s₁.i_parent s₆ := by
  intro bs b bs' hbs pre e post hb hgood
  have hmem : b ∈ s.blks D := by
    rw [hbs]
    simp
  have hfront : bs.flatMap s₁.blocks = bs.flatMap s.blocks := h.before.flatMap fun c hc => by
    rw [hbs]
    simp [hc]
  have hblock : b ∈ s₆.dirBlocks E D := by
    rwa [(h.final.noted D hD).dirBlocks, h.after.blks, h.blks₅ hD]
  obtain ⟨e', hat, hsame⟩ := checkDir_keeps h.ready (by rw [h.before.blks, hbs])
    (by rw [h.before.blocks b hmem, hb]) (by rw [hfront]; exact hgood) hover
  rw [← h.scanned, ← h.mid hmem] at hat
  have hkeeps : Keeps (s₄.blocks b) (s₅.blocks b) := by
    rw [h.fixed]
    refine h.ready.fixed ?_ ?_ (fun c hc => ?_) h.tidy hD h.sized h.place _ b
    · rw [h.between.i_isize, h.scanned, checkDir_isize_self]
    · rw [h.between.blks, h.blks₂, h.before.blks]
    · rw [← h.scanned]
      exact h.mid (by rwa [← h.before.blks])
  obtain ⟨e'', hat', hsame'⟩ := hkeeps _ e' hat (hsame.user hgood.toUser)
  exact ⟨hblock, e'', by rwa [h.last hD hmem], hsame.trans hsame'⟩

end Stages

/-- Its volume. -/
def rootVolume : Layout := smallLayout

/-- Where `ginode` points on a volume whose inode blocks are where they should be. -/
def ginodePlace (v : Layout) (i : ℕ) : ℕ := (v.blockAddr i).toNat + (i - 1) % v.ipb * DINODE_STRUCT

/-- It has the root directory and the file 12. -/
def rootEnv : DirEnv where
  v := rootVolume
  ftype := true
  statemap i := if i = 2 then .dstate else if i = 12 then .fstate else .ustate
  inoType i := if i = 2 then 2 else 1
  inpsort := [2]
  slot := rootVolume.slotAddr
  ginode := ginodePlace rootVolume
  tree ptrs _ := ptrs.filter (· ≠ 0)
  large := true

/-- With `.`, `..` and the entry `foo`. -/
def rootRecs : List DirRec :=
  [⟨2, 12, 2, dotName, [0]⟩, ⟨2, 12, 2, dotdotName, [0]⟩, ⟨12, 1000, 1, [102, 111, 111], []⟩]

theorem rec_ok {r : DirRec} (h : r.e2d_ino ≤ E.v.maxino ∧ 4 ∣ r.e2d_reclen ∧ 12 ≤ r.e2d_reclen ∧
    dirRecLen r.namlen ≤ r.e2d_reclen ∧ r.e2d_name ≠ [] ∧ r.namlen ≤ 255 ∧ ∀ c ∈ r.e2d_name, c ≠ 0 ∧ c ≠ 47) :
    r.Ok E :=
  ⟨h.1, h.2.1, h.2.2.1, fun _ => h.2.2.2.1, fun _ => h.2.2.2.2.1, fun _ => h.2.2.2.2.2.1,
    fun _ => h.2.2.2.2.2.2⟩

/-- The small volume with inodes of 256 bytes: inode 13 is the first one of its block. -/
def wideVolume : Layout :=
  { smallLayout with toVolume := { smallLayout.toVolume with isize := 256, isize_cases := .inr rfl } }

/-- It has the root directory and the directory 13. -/
def wideEnv : DirEnv where
  v := wideVolume
  ftype := true
  statemap i := if i = 2 ∨ i = 13 then .dstate else if i = 12 ∨ i = 14 then .fstate else .ustate
  inoType i := if i = 2 ∨ i = 13 then 2 else 1
  inpsort := [2, 13]
  slot := wideVolume.slotAddr
  ginode := ginodePlace wideVolume
  tree ptrs _ := ptrs.filter (· ≠ 0)
  large := true

/-- The directory 13 has 1500 bytes in the blocks 41 and 42, with an entry in either. -/
def wideState : Pass2State where
  blocks b :=
    if b = 40 then [⟨2, 12, 2, dotName, [0]⟩, ⟨2, 12, 2, dotdotName, [0]⟩, ⟨13, 1000, 2, [115, 117, 98], []⟩]
    else if b = 41 then
      [⟨13, 12, 2, dotName, [0]⟩, ⟨2, 12, 2, dotdotName, [0]⟩, ⟨12, 1000, 1, [102, 111, 111], []⟩]
    else [⟨14, 1024, 1, [98, 97, 114], []⟩]
  i_parent d := if d = 2 then 2 else 0
  i_dotdot _ := 0
  lncntp _ := 1
  i_isize d := if d = 2 then 1024 else 1500
  blks d := if d = 2 then [40] else [41, 42]
  itab a := ([(5377, 0x41), (5381, 4), (5416, 40), (8193, 0x41), (8196, 0xdc), (8197, 5), (8232, 41),
    (8236, 42)].lookup a).getD 0

theorem wide_entered : Entered wideEnv wideState where
  nodup := by decide
  valid := by decide
  parent_le d := by
    show (if d = 2 then 2 else 0) ≤ 16
    split <;> omega
  noted d hd := by
    rcases List.mem_pair.1 hd with rfl | rfl <;> exact ⟨by decide, by decide, by decide, by decide, by decide⟩
  apart := by decide

/-- `ginode` is called for the directory 13, and finds it. -/
theorem wide_finds : GinodeFinds wideEnv wideState where
  sizes d hd h := by
    rcases List.mem_pair.1 hd with rfl | rfl
    · exact absurd (by decide) h.2
    · decide
  dotdots d hd h := by
    rcases List.mem_pair.1 hd with rfl | rfl
    · exact absurd (by decide +kernel) h.2.2.1
    · exact absurd (by decide +kernel) h.2.2.1

/-- The small volume with two directories, inodes 15 and 16, whose parent is known. -/
def strayEnv : DirEnv where
  v := rootVolume
  ftype := true
  statemap i := if i = 2 ∨ i = 15 ∨ i = 16 then .dstate else if i = 12 then .fstate else .ustate
  inoType i := if i = 12 then 1 else 2
  inpsort := [15, 16]
  slot := rootVolume.slotAddr
  ginode := ginodePlace rootVolume
  tree ptrs _ := ptrs.filter (· ≠ 0)
  large := true

/-- The directory 15 has 1500 bytes in the blocks 41 and 42, the directory 16 has the blocks 43 and 44, and
the only entry in block 44. -/
def strayState : Pass2State where
  blocks b :=
    if b = 41 then [⟨15, 12, 2, dotName, [0]⟩, ⟨2, 1012, 2, dotdotName, [0]⟩]
    else if b = 43 then [⟨16, 12, 2, dotName, [0]⟩, ⟨2, 1012, 2, dotdotName, [0]⟩]
    else if b = 44 then [⟨12, 1024, 1, [102, 111, 111], []⟩]
    else [unusedRec 1024]
  i_parent _ := 2
  i_dotdot _ := 0
  lncntp _ := 1
  i_isize d := if d = 15 then 1500 else 2048
  blks d := if d = 15 then [41, 42] else [43, 44]
  itab a := ([(6913, 0x41), (6916, 0xdc), (6917, 5), (6952, 41), (6956, 42), (7041, 0x41), (7045, 8), (7080, 43),
    (7084, 44)].lookup a).getD 0

/-- **The size of the directory 15 is written over the second pointer of the directory 16**, which loses
its entry though nothing is put over it. -/
theorem stray_size_loses : Entered strayEnv strayState ∧
    ¬Overwrites strayEnv strayState 16 (scanDirs strayEnv [15] strayState).i_parent ∧
    ¬EntriesKept strayEnv strayState 16 (scanDirs strayEnv [15] strayState).i_parent
      (pass2 strayEnv (fun _ => 0) strayState) := by
  refine ⟨⟨⟨fun d => by show 2 ≤ 16; omega, fun d hd => ?_, by decide⟩, by decide, by decide⟩, ?_, fun hkept => ?_⟩
  · rcases List.mem_pair.1 hd with rfl | rfl <;> exact ⟨by decide, by decide, by decide, by decide, by decide⟩
  · rintro ⟨-, -, r, e, post, hrecs, -, hgood, -⟩
    have hall : strayState.recs 16 = ⟨16, 12, 2, dotName, [0]⟩ :: ⟨2, 1012, 2, dotdotName, [0]⟩ ::
        [⟨12, 1024, 1, [102, 111, 111], []⟩] := by decide
    rw [hall, List.cons.injEq, List.cons.injEq] at hrecs
    exact hgood.ne_dotdot (by rw [← hrecs.2.1])
  · have hlost : 44 ∉ (pass2 strayEnv (fun _ => 0) strayState).dirBlocks strayEnv 16 := by decide +kernel
    exact hlost (hkept [43] 44 [] rfl [] ⟨12, 1024, 1, [102, 111, 111], []⟩ [] rfl
      ⟨⟨by decide, by decide, by decide⟩, by unfold DirEnv.InoOk; decide, .inl rfl, fun hc => absurd rfl hc⟩).1

end Ext2fs.Fsck
