import Mathlib.Data.ZMod.Basic
import Ext2fs.Fsck.Pass2Keeps

/-!
# The count of the names in pass 2

`pass1` sets `lncntp` of an inode to its link count, and `pass2` takes one off for every entry that it
leaves.  What is on the disk counts: a record that `pass2check` splits or changes without `ALTERED`, one
that it takes out, and one that it puts there.

* `tally` — the records that name an inode;
* `pass2check_balance` — one call: the entries that are left are those that are taken off;
* `Ready.balance` — a directory; **`scanDirs_balance`** — the first loop.

The counts are of the type `int16_t`, and equal modulo `2 ^ 16`.
-/

namespace Ext2fs.Fsck

open Splice

/-- How many of the records name the inode. -/
def tally (i : ℕ) (l : List DirRec) : ℕ := space (fun r => if r.e2d_ino = i then 1 else 0) l

/-- An inode in range that pass 1 has found in use, and that is not to be cleared. -/
structure DirEnv.Live (E : DirEnv) (i : ℕ) : Prop where
  ne_zero : i ≠ 0
  inRange : E.InoOk i
  used : E.statemap i = .fstate ∨ E.statemap i = .dstate ∨ E.statemap i = .dfound

variable {E : DirEnv} {N i : ℕ} {c : Cursor} {st : Chk} {r : DirRec}

theorem tally_append (i : ℕ) (l l' : List DirRec) : tally i (l ++ l') = tally i l + tally i l' :=
  space_append ..

theorem tally_single (i : ℕ) (r : DirRec) : tally i [r] = if r.e2d_ino = i then 1 else 0 := by
  simp [tally]

theorem tally_cons (i : ℕ) (r : DirRec) (l : List DirRec) : tally i (r :: l) = tally i [r] + tally i l :=
  tally_append i [r] l

theorem i16_cast (x : ℤ) : ((i16 x : ℤ) : ZMod (2 ^ 16)) = x :=
  (ZMod.intCast_eq_intCast_iff _ _ _).2 Int.bmod_emod

/-! ### One record -/

/-- The entries of the inode that are not counted yet. -/
def Chk.rest (i : ℕ) (st : Chk) : ZMod (2 ^ 16) := (st.lncntp i : ZMod (2 ^ 16))

/-- Of an entry that names the inode one is taken off. -/
theorem Chk.uncount_rest (i j : ℕ) (st : Chk) :
    (st.uncount j).rest i + (if j = i then 1 else 0) = st.rest i := by
  show ((Function.update st.lncntp j (i16 (st.lncntp j - 1)) i : ℤ) : ZMod (2 ^ 16)) + _ = (st.lncntp i : ZMod (2 ^ 16))
  rcases eq_or_ne j i with rfl | hne
  · rw [if_pos rfl, Function.update_self, i16_cast]
    push_cast
    ring
  · rw [if_neg hne, Function.update_of_ne hne.symm, add_zero]

@[simp] theorem Chk.next_rest (i : ℕ) (st : Chk) : st.next.rest i = st.rest i := rfl

@[simp] theorem Chk.setDotdot_rest (i d : ℕ) (x : ℤ) (st : Chk) : (st.setDotdot d x).rest i = st.rest i := rfl

@[simp] theorem Chk.setParent_rest (i d p : ℕ) (st : Chk) : (st.setParent d p).rest i = st.rest i := rfl

/-- The balance before the record at `dirp` is done with. -/
def Cursor.owed (i : ℕ) (c : Cursor) : ZMod (2 ^ 16) := c.st.rest i + (tally i c.done : ℕ)

/-- The balance of all records. -/
def Cursor.settled (i : ℕ) (c : Cursor) : ZMod (2 ^ 16) := c.st.rest i + (tally i c.recs : ℕ)

theorem Cursor.settled_eq (i : ℕ) (c : Cursor) :
    c.settled i = c.owed i + (if c.dirp.e2d_ino = i then 1 else 0) := by
  unfold Cursor.settled Cursor.owed Cursor.recs
  rw [tally_append, tally_single, Nat.cast_add, add_assoc]
  congr 2
  split <;> simp

/-- A record that does not name the inode is done with. -/
theorem Cursor.settled_of_ne (h : c.dirp.e2d_ino ≠ i) : c.settled i = c.owed i := by
  rw [Cursor.settled_eq, if_neg h, add_zero]

/-- What is in `done` and what is left make up the balance. -/
theorem Cursor.owed_congr {c c' : Cursor} (hdone : c'.done = c.done) (hst : c'.st.rest i = c.st.rest i) :
    c'.owed i = c.owed i := by
  unfold Cursor.owed
  rw [hdone, hst]

/-- The entry is counted. -/
theorem Cursor.settled_uncount {c c' : Cursor} (hino : c'.dirp.e2d_ino = c.dirp.e2d_ino)
    (hdone : c'.done = c.done) (st : Chk) (hst : st.rest i = c.st.rest i)
    (h : c'.st = st.uncount c.dirp.e2d_ino) : c'.settled i = c.owed i := by
  rw [Cursor.settled_eq]
  unfold Cursor.owed
  rw [hdone, h, hino, ← hst, ← st.uncount_rest i c.dirp.e2d_ino]
  ring

theorem checkType_owed (t : ℕ) (c : Cursor) : (checkType E t c).owed i = c.owed i :=
  Cursor.owed_congr (checkType_done t c) (by rw [checkType_st])

theorem splitOff_owed (n : ℕ) (c : Cursor) : (c.splitOff n).owed i = c.owed i := by
  show (c.st.next.uncount c.dirp.e2d_ino).rest i + (tally i (c.done ++ [{ c.dirp with e2d_reclen := n }]) : ℕ) = _
  unfold Cursor.owed
  rw [tally_append, tally_single, ← c.st.next_rest, ← c.st.next.uncount_rest i c.dirp.e2d_ino]
  push_cast
  split <;> ring

theorem checkDot_owed (c : Cursor) : (checkDot E N c).owed i = c.owed i := by
  unfold checkDot
  simp only
  split
  · rw [checkType_owed]
    split <;> rfl
  · split
    · rfl
    · split
      · rfl
      · split
        · rfl
        · rw [splitOff_owed]
          rfl

/-- **An entry** that stays is taken off, if its inode is in use. -/
theorem checkEntry_settled (hi : E.Live i) (c : Cursor) : (checkEntry E N c).settled i = c.owed i := by
  have hzero : (0 : ℕ) ≠ i := hi.ne_zero.symm
  have hremoved : ∀ c' : Cursor, c'.done = c.done → c'.st.rest i = c.st.rest i → c'.remove.settled i = c.owed i :=
    fun c' h1 h2 => (Cursor.settled_of_ne hzero).trans (Cursor.owed_congr h1 h2)
  have hcounted : ∀ t (st : Chk), st.rest i = c.st.rest i →
      (checkType E t { c with st := st.uncount c.dirp.e2d_ino }).settled i = c.owed i := by
    intro t st hst
    obtain ⟨u, hu⟩ := checkType_dirp (E := E) t { c with st := st.uncount c.dirp.e2d_ino }
    refine Cursor.settled_uncount (by rw [hu]) (checkType_done t _) st hst (checkType_st t _)
  -- an entry of an inode that is not in use names another one
  have hunused : E.statemap c.dirp.e2d_ino = .ustate ∨ E.statemap c.dirp.e2d_ino = .dclear ∨
      E.statemap c.dirp.e2d_ino = .fclear → (if c.st.next.entryno ≤ 2 then { c with st := c.st.next }
        else { c with st := c.st.next }.remove).settled i = c.owed i := by
    intro hstate
    split
    · refine (Cursor.settled_of_ne ?_).trans (Cursor.owed_congr rfl rfl)
      rintro rfl
      rcases hi.used with hc | hc | hc <;> simp [hc] at hstate
    · exact hremoved _ rfl rfl
  have hdir : (if c.st.i_parent c.dirp.e2d_ino ≠ 0 ∧ 2 < c.st.next.entryno then { c with st := c.st.next }.remove
      else checkType E (E.inoType c.dirp.e2d_ino) { c with st := (if 2 < c.st.next.entryno then
        c.st.next.setParent c.dirp.e2d_ino N else c.st.next).uncount c.dirp.e2d_ino }).settled i = c.owed i := by
    split
    · exact hremoved _ rfl rfl
    · refine hcounted _ _ ?_
      split <;> rfl
  unfold checkEntry
  simp only
  split
  next h0 => exact Cursor.settled_of_ne (h0 ▸ hzero)
  · split
    · exact hremoved c rfl rfl
    · split
      · exact hremoved _ rfl rfl
      · split
        next h => exact hunused (.inl h)
        next h => exact hunused (.inr (.inl h))
        next h => exact hunused (.inr (.inr h))
        · exact hdir
        · exact hdir
        · exact hcounted _ _ rfl

theorem count_settled (hi : i ≠ 0) (c : Cursor) : c.count.settled i = c.owed i := by
  by_cases h0 : c.dirp.e2d_ino = 0
  · have heq : c.count = { c with st := c.st.next } := by
      unfold Cursor.count
      rw [if_neg (not_not.2 h0)]
    rw [heq]
    exact Cursor.settled_of_ne (h0 ▸ hi.symm)
  · have heq : c.count = { c with st := c.st.next.uncount c.dirp.e2d_ino } := by
      unfold Cursor.count
      rw [if_pos h0]
    rw [heq]
    exact Cursor.settled_uncount rfl rfl c.st.next rfl rfl

theorem missingDotdot_owed (c : Cursor) : (missingDotdot E N c).owed i = c.owed i := by
  unfold missingDotdot
  simp only
  split
  · rfl
  · split
    · rfl
    · split <;> rfl

theorem checkDotdot_settled (hi : E.Live i) (c : Cursor) : (checkDotdot E N c).settled i = c.owed i := by
  unfold checkDotdot
  simp only
  split
  · rw [checkEntry_settled hi, checkType_owed]
    rfl
  · rw [count_settled hi.ne_zero, missingDotdot_owed]

theorem checkSecond_settled (hi : E.Live i) (c : Cursor) : (checkSecond E N c).settled i = c.owed i := by
  unfold checkSecond
  split
  · exact checkEntry_settled hi c
  · split
    · split
      · exact checkEntry_settled hi c
      · rw [checkDotdot_settled hi, splitOff_owed]
    · exact checkDotdot_settled hi c

theorem checked_settled (hi : E.Live i) (r : DirRec) (st : Chk) : (checked E N r st).settled i = st.rest i := by
  have hstart : (⟨[], r, false, st⟩ : Cursor).owed i = st.rest i := by
    unfold Cursor.owed
    simp [tally]
  unfold checked
  simp only
  rw [checkSecond_settled hi]
  split
  · rw [checkDot_owed, hstart]
  · exact hstart

/-! ### What is not written -/

/-- What is not marked has the same entries as the record that came. -/
def Cursor.Plain (i : ℕ) (r : DirRec) (c : Cursor) : Prop := c.altered = false → tally i c.recs = tally i [r]

theorem Cursor.Plain.of_altered (h : c.altered = true) : c.Plain i r := fun hc => by rw [h] at hc; cases hc

/-- Another state. -/
theorem Cursor.Plain.withSt (h : c.Plain i r) (st : Chk) : Cursor.Plain i r { c with st := st } := h

theorem Cursor.Plain.checkType (h : c.Plain i r) (t : ℕ) : (checkType E t c).Plain i r := by
  unfold Fsck.checkType
  split
  · exact .of_altered rfl
  · exact h

theorem Cursor.Plain.splitOff (h : c.Plain i r) (hi : i ≠ 0) (n : ℕ) : (c.splitOff n).Plain i r := by
  intro hc
  have hsame : tally i (c.splitOff n).recs = tally i c.recs := by
    show tally i ((c.done ++ [{ c.dirp with e2d_reclen := n }]) ++ [unusedRec (c.dirp.e2d_reclen - n)]) = _
    rw [tally_append, tally_append, tally_single, tally_single, Cursor.recs, tally_append, tally_single,
      if_neg (show (unusedRec (c.dirp.e2d_reclen - n)).e2d_ino ≠ i from hi.symm), Nat.add_zero]
  rw [hsame]
  exact h hc

theorem Cursor.Plain.checkDot (h : c.Plain i r) (hi : i ≠ 0) : (checkDot E N c).Plain i r := by
  unfold Fsck.checkDot
  simp only
  split
  · refine Cursor.Plain.checkType ?_ _
    split
    · exact .of_altered rfl
    · exact h
  · split
    · exact h
    · split
      · exact h
      · split
        · exact .of_altered rfl
        · exact Cursor.Plain.splitOff (.of_altered rfl) hi _

theorem Cursor.Plain.checkEntry (h : c.Plain i r) : (checkEntry E N c).Plain i r := by
  rcases checkEntry_cases (E := E) (N := N) c with ⟨-, heq⟩ | ⟨-, -, -, heq⟩ | ⟨-, -, heq⟩ | ⟨-, -, heq⟩ |
      ⟨-, t, st, -, heq⟩ <;> rw [heq]
  · exact h
  · exact .of_altered rfl
  · exact .of_altered rfl
  · exact h.withSt _
  · exact (h.withSt _).checkType t

theorem Cursor.Plain.checkDotdot (h : c.Plain i r) : (checkDotdot E N c).Plain i r := by
  unfold Fsck.checkDotdot
  simp only
  split
  · exact ((h.withSt _).checkType _).checkEntry
  · refine Cursor.Plain.withSt ?_ _
    unfold missingDotdot
    simp only
    split
    · exact h.withSt _
    · split
      · exact h.withSt _
      · split
        · exact .of_altered rfl
        · exact h

theorem Cursor.Plain.checkSecond (h : c.Plain i r) (hi : i ≠ 0) : (checkSecond E N c).Plain i r := by
  unfold Fsck.checkSecond
  split
  · exact h.checkEntry
  · split
    · split
      · exact h.checkEntry
      · exact (h.splitOff hi _).checkDotdot
    · exact h.checkDotdot

theorem checked_plain (hi : i ≠ 0) (r : DirRec) (st : Chk) : (checked E N r st).Plain i r := by
  have hstart : (⟨[], r, false, st⟩ : Cursor).Plain i r := fun _ => rfl
  unfold checked
  simp only
  refine Cursor.Plain.checkSecond ?_ hi
  split
  · exact hstart.checkDot hi
  · exact hstart

/-- **A call of `pass2check`**: what is taken off are the entries in the place of the record afterwards. -/
theorem pass2check_balance (hi : E.Live i) (r : DirRec) (st : Chk) :
    (onRec (pass2check E N) r st).st.rest i + (tally i (onRec (pass2check E N) r st).out : ℕ) = st.rest i := by
  have hset := checked_settled (N := N) hi r st
  rw [pass2check_out]
  show (checked E N r st).st.rest i + _ = _
  split
  · exact hset
  next halt =>
    rw [← checked_plain (N := N) hi.ne_zero r st (by simpa using halt)]
    exact hset

/-! ### A directory -/

section

variable {σ : Type*} {f : DirRec → σ → Reply σ} {bs : List ℕ} {blocks : ℕ → List DirRec} {filesize : ℤ}

/-- **The records of a directory** whose blocks are well formed are scanned as one list. -/
theorem scanBlocks_sweep (hrange : ∀ b ∈ bs, E.v.inRange b = true) (hok : ∀ b ∈ bs, BlockOk E (blocks b))
    (hnd : bs.Nodup) (hfs : filesize = bs.length * E.v.bsize) (st : σ) :
    (scanBlocks E f bs filesize blocks st).1 = (sweep (onRec f) (bs.flatMap blocks) st).stop ∧
    bs.flatMap (scanBlocks E f bs filesize blocks st).2.1 = (sweep (onRec f) (bs.flatMap blocks) st).out ∧
    (scanBlocks E f bs filesize blocks st).2.2 = (sweep (onRec f) (bs.flatMap blocks) st).st := by
  induction bs generalizing blocks filesize st with
  | nil => exact ⟨rfl, rfl, rfl⟩
  | cons c bs ih =>
    obtain ⟨hc, hbs⟩ := List.forall_mem_cons.1 hok
    obtain ⟨hnot, hnd⟩ := List.nodup_cons.1 hnd
    have hsame : ∀ d ∈ bs, Function.update blocks c (sweep (onRec f) (blocks c) st).out d = blocks d :=
      fun d hd => Function.update_of_ne (fun h => hnot (by rwa [← h])) _ _
    have hflat : bs.flatMap (Function.update blocks c (sweep (onRec f) (blocks c) st).out) = bs.flatMap blocks :=
      List.flatMap_congr hsame
    have hbs' : ∀ d ∈ bs, BlockOk E (Function.update blocks c (sweep (onRec f) (blocks c) st).out d) :=
      fun d hd => (hsame d hd).symm ▸ hbs d hd
    rw [scanBlocks_cons (hrange c List.mem_cons_self) hc hfs, List.flatMap_cons]
    cases hstop : (sweep (onRec f) (blocks c) st).stop with
    | true =>
      have hout : (c :: bs).flatMap (Function.update blocks c (sweep (onRec f) (blocks c) st).out) =
          (sweep (onRec f) (blocks c) st).out ++ bs.flatMap blocks := by
        rw [List.flatMap_cons, hflat, Function.update_self]
      rw [if_pos rfl, sweep_append_stop _ hstop]
      exact ⟨rfl, hout, rfl⟩
    | false =>
      obtain ⟨h1, h2, h3⟩ := ih (fun d hd => hrange d (List.mem_cons_of_mem c hd)) hbs' hnd rfl
        (sweep (onRec f) (blocks c) st).st
      rw [hflat] at h1 h2 h3
      rw [if_neg Bool.false_ne_true, sweep_append _ hstop, List.flatMap_cons, scanBlocks_frame hnot,
        Function.update_self, h2]
      exact ⟨h1, rfl, h3⟩

end

variable {s t : Pass2State} {D : ℕ}

/-- The size of the directory is not too large for `inossize`. -/
def Fits (E : DirEnv) (s : Pass2State) (D : ℕ) : Prop := fixedSize E (s.i_isize D) < 2 ^ 31

/-- A directory without a size has no records. -/
theorem Ready.recs_nil (h : Ready E s D) (hsize : s.i_isize D = 0) : s.recs D = [] := by
  have hB := E.v.bsize_ge
  have hlen := h.count
  rw [hsize, blocksFor, Nat.zero_add, Nat.div_eq_of_lt (by omega), List.length_eq_zero_iff] at hlen
  unfold Pass2State.recs
  rw [hlen]
  rfl

/-- **The first loop, for one directory**, as a scan of its records. -/
theorem Ready.scan_recs (h : Ready E s D) (hfits : Fits E s D) :
    (checkDir E D s).recs D = (sweep (onRec (pass2check E D)) (s.recs D) s.chk).out ∧
    (checkDir E D s).lncntp = (sweep (onRec (pass2check E D)) (s.recs D) s.chk).st.lncntp ∧
    (checkDir E D s).i_dotdot = (sweep (onRec (pass2check E D)) (s.recs D) s.chk).st.i_dotdot ∧
    (checkDir E D s).i_parent = (sweep (onRec (pass2check E D)) (s.recs D) s.chk).st.i_parent := by
  by_cases hsize : s.i_isize D = 0
  · have heq : checkDir E D s = s := if_pos hsize
    rw [heq, h.recs_nil hsize]
    exact ⟨rfl, rfl, rfl, rfl⟩
  have hround : fixedSize E (s.i_isize D) = (s.blks D).length * E.v.bsize := by
    rw [h.count, ← blocksFor_fixedSize hsize]
    exact (roundup_of_mod (fixedSize_mod _)).symm
  have hfs : inossize (fixedSize E (s.i_isize D)) 0 = fixedSize E (s.i_isize D) := if_neg (not_le.2 hfits)
  have hall : ((inossize (fixedSize E (s.i_isize D)) 0 : ℕ) : ℤ) = (s.blks D).length * E.v.bsize := by
    rw [hfs, hround]
    push_cast
    ring
  obtain ⟨-, h2, h3⟩ := scanBlocks_sweep (f := pass2check E D) h.inRange h.blocks_ok h.nodup hall s.chk
  rw [checkDir_eq hsize]
  exact ⟨h2, congrArg Chk.lncntp h3, congrArg Chk.i_dotdot h3, congrArg Chk.i_parent h3⟩

/-- The entries of the inode that are not counted yet. -/
def Pass2State.rest (s : Pass2State) (i : ℕ) : ZMod (2 ^ 16) := (s.lncntp i : ZMod (2 ^ 16))

/-- **A directory**: what is taken off are the entries that it has afterwards. -/
theorem Ready.balance (h : Ready E s D) (hfits : Fits E s D) (hi : E.Live i) :
    (checkDir E D s).rest i + (tally i ((checkDir E D s).recs D) : ℕ) = s.rest i := by
  obtain ⟨hrecs, hcount, -⟩ := h.scan_recs hfits
  unfold Pass2State.rest
  rw [hrecs, hcount]
  exact sweep_balance (v := Chk.rest i) (fun _ _ => rfl) (pass2check_balance hi) (s.recs D) s.chk

/-! ### The first loop -/

/-- The directories of a list, each with blocks of its own, as the loops of `pass2` come to them. -/
structure Scannable (E : DirEnv) (s : Pass2State) (ds : List ℕ) : Prop where
  nodup : ds.Nodup
  ready : ∀ d ∈ ds, Ready E s d
  fits : ∀ d ∈ ds, Fits E s d
  alone : ∀ d ∈ ds, ∀ D ∈ ds, d ≠ D → ∀ b ∈ s.blks d, b ∉ s.blks D
  mem : ∀ d ∈ ds, d ∈ E.inpsort

variable {ds : List ℕ}

/-- The records of a directory that is not touched. -/
theorem Ready.untouched (h : Ready E s D) (hu : Untouched D s t) (hpar : t.i_parent D ≤ E.v.maxino) : Ready E t D where
  valid := h.valid
  parent_le := hpar
  count := by rw [hu.blks, hu.i_isize, h.count]
  inRange := hu.blks ▸ h.inRange
  nodup := hu.blks ▸ h.nodup
  blocks_ok b hb := by
    rw [hu.blks] at hb
    rw [hu.blocks b hb]
    exact h.blocks_ok b hb

/-- A directory whose scan is over. -/
theorem Ready.checked (h : Ready E s D) : Ready E (checkDir E D s) D where
  valid := h.valid
  parent_le := by
    rcases (checkDir_moves (E := E) D s).1 D with hp | ⟨-, hp⟩ <;> rw [hp]
    · exact h.parent_le
    · exact h.valid.2
  count := by rw [checkDir_blks, checkDir_isize_self, h.count]
  inRange := checkDir_blks (E := E) D s ▸ h.inRange
  nodup := checkDir_blks (E := E) D s ▸ h.nodup
  blocks_ok b hb := checkDir_blocks_ok h (by rwa [checkDir_blks] at hb)

/-- The size stays in bounds when it is brought to a multiple of a block. -/
theorem Fits.checked (h : Fits E s D) : Fits E (checkDir E D s) D := by
  unfold Fits
  rw [checkDir_isize]
  split
  next hround =>
    rw [fixedSize_of_mod (fixedSize_ne_zero hround.2) (fixedSize_mod _)]
    exact h
  · exact h

theorem Fits.of_isize (h : Fits E s D) (hsize : t.i_isize D = s.i_isize D) : Fits E t D := by
  unfold Fits
  rw [hsize]
  exact h

/-- The directories behind the one that is scanned. -/
theorem Scannable.tail {d : ℕ} (h : Scannable E s (d :: ds)) (hle : ∀ x, (checkDir E d s).i_parent x ≤ E.v.maxino) :
    Scannable E (checkDir E d s) ds ∧ ∀ D ∈ ds, Untouched D s (checkDir E d s) := by
  obtain ⟨hnot, hnd⟩ := List.nodup_cons.1 h.nodup
  have hne : ∀ D ∈ ds, d ≠ D := fun D hD heq => hnot (heq ▸ hD)
  have hu : ∀ D ∈ ds, Untouched D s (checkDir E d s) := fun D hD =>
    checkDir_untouched (hne D hD) (h.alone d List.mem_cons_self D (List.mem_cons_of_mem d hD) (hne D hD))
  refine ⟨⟨hnd, fun D hD => ?_, fun D hD => ?_, fun x hx D hD => ?_,
    fun D hD => h.mem D (List.mem_cons_of_mem d hD)⟩, hu⟩
  · exact (h.ready D (List.mem_cons_of_mem d hD)).untouched (hu D hD) (hle D)
  · exact (h.fits D (List.mem_cons_of_mem d hD)).of_isize (hu D hD).i_isize
  · rw [checkDir_blks]
    exact h.alone x (List.mem_cons_of_mem d hx) D (List.mem_cons_of_mem d hD)

/-- A directory of the list beside another one. -/
theorem Scannable.other (h : Scannable E s ds) {d : ℕ} (hd : d ∈ ds) (hD : D ∈ ds) (hne : d ≠ D) : Other E s D d :=
  ⟨hne, h.mem d hd, (h.ready d hd).valid.2, h.alone d hd D hD hne⟩

/-- The rounds for the directories behind one leave it alone. -/
theorem Scannable.head_untouched {d : ℕ} (h : Scannable E s (d :: ds)) (ht : Tidy E (checkDir E d s))
    (hplace : ∀ x ∈ ds, Resized E s x → E.ginode x = E.slot x) :
    Untouched d (checkDir E d s) (scanDirs E ds (checkDir E d s)) := by
  obtain ⟨hnot, -⟩ := List.nodup_cons.1 h.nodup
  refine (scanDirs_untouched (fun x hx => ?_) (fun x hx hr => hplace x hx (checkDir_resized hr)) ht).1
  have hne : x ≠ d := fun hc => hnot (hc ▸ hx)
  exact (h.other (List.mem_cons_of_mem d hx) List.mem_cons_self hne).congr (checkDir_blks d s)

/-- How many entries of the directories name the inode. -/
def Pass2State.names (s : Pass2State) (ds : List ℕ) (i : ℕ) : ℕ := (ds.map fun d => tally i (s.recs d)).sum

/-- **The first loop**: what it takes off are the entries that the directories have afterwards, and the
directories are in order for the second one. -/
theorem scanDirs_balance (h : Scannable E s ds) (ht : Tidy E s)
    (hplace : ∀ d ∈ ds, Resized E s d → E.ginode d = E.slot d) :
    Scannable E (scanDirs E ds s) ds ∧ Tidy E (scanDirs E ds s) ∧
    ∀ i, E.Live i → (scanDirs E ds s).rest i + ((scanDirs E ds s).names ds i : ℕ) = s.rest i := by
  induction ds generalizing s with
  | nil => exact ⟨h, ht, fun i _ => by simp [Pass2State.names, scanDirs]⟩
  | cons d ds ih =>
    have hready := h.ready d List.mem_cons_self
    obtain ⟨hd, hplaces⟩ := List.forall_mem_cons.1 hplace
    have htidy : Tidy E (checkDir E d s) := checkDir_tidy ht (h.mem d List.mem_cons_self) hready.valid.2 hd
    obtain ⟨htail, -⟩ := h.tail htidy.parent_le
    obtain ⟨h1, h2, h3⟩ := ih htail htidy fun x hx hr => hplaces x hx (checkDir_resized hr)
    have hu := h.head_untouched htidy hplaces
    have hrun : scanDirs E (d :: ds) s = scanDirs E ds (checkDir E d s) := rfl
    rw [hrun]
    refine ⟨⟨h.nodup, ?_, ?_, ?_, h.mem⟩, h2, fun i hi => ?_⟩
    · exact List.forall_mem_cons.2 ⟨hready.checked.untouched hu (h2.parent_le d), h1.ready⟩
    · exact List.forall_mem_cons.2
        ⟨(h.fits d List.mem_cons_self).checked.of_isize hu.i_isize, h1.fits⟩
    · have hblks : (scanDirs E ds (checkDir E d s)).blks = s.blks := by rw [hu.blks, checkDir_blks]
      rw [hblks]
      exact h.alone
    · have hnames : (scanDirs E ds (checkDir E d s)).names (d :: ds) i =
          tally i ((checkDir E d s).recs d) + (scanDirs E ds (checkDir E d s)).names ds i := by
        unfold Pass2State.names
        rw [List.map_cons, List.sum_cons, hu.recs]
      rw [hnames, Nat.cast_add, add_left_comm, h3 i hi, add_comm]
      exact hready.balance (h.fits d List.mem_cons_self) hi

end Ext2fs.Fsck
