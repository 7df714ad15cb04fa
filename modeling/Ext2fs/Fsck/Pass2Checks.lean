import Ext2fs.Fsck.Pass2

/-!
# What one record becomes in pass 2

`pass2check` is taken apart by the count of the record: the first one, the second one, and those behind.

* `Moves` — what a call does to the parents of the directories;
* `Cursor.Sound` — the records in `dbuf` are in order and take the space of the one that came;
* `pass2check_first`, `pass2check_second`, `pass2check_later` — where an entry of the user stays, and where
  `..` is put over the second record.
-/

namespace Ext2fs.Fsck

open Splice

variable {E : DirEnv} {N : ℕ} {c : Cursor} {st : Chk} {r : DirRec}

/-- An entry of the user: in use, and neither `.` nor `..`. -/
structure DirRec.User (r : DirRec) : Prop where
  live : r.e2d_ino ≠ 0
  ne_dot : r.e2d_name ≠ dotName
  ne_dotdot : r.e2d_name ≠ dotdotName

/-- The inode of an entry that `pass2check` takes to be in range. -/
def DirEnv.InoOk (E : DirEnv) (ino : ℕ) : Prop := ¬(E.v.maxino < ino ∨ (ino < FIRSTINO ∧ ino ≠ ROOTINO))

/-- An entry with the same name and the same inode. -/
def DirRec.Same (r e : DirRec) : Prop := e.e2d_ino = r.e2d_ino ∧ e.e2d_name = r.e2d_name

theorem DirRec.Same.refl (r : DirRec) : r.Same r := ⟨rfl, rfl⟩

/-! ### Names -/

/-- The test for an extra `.` or `..`. -/
def DirRec.Extra (r : DirRec) : Prop :=
  r.namlen ≤ 2 ∧ r.raw[0]? = some 46 ∧ (r.namlen = 1 ∨ r.raw[1]? = some 46)

/-- Of a record with a name. -/
theorem extra_iff (hname : r.e2d_name ≠ []) : r.Extra ↔ r.e2d_name = dotName ∨ r.e2d_name = dotdotName := by
  obtain ⟨ino, reclen, type, name, behind⟩ := r
  unfold DirRec.Extra DirRec.namlen DirRec.raw dotName dotdotName
  rcases name with _ | ⟨a, _ | ⟨b, _ | ⟨d, name⟩⟩⟩
  · exact absurd rfl hname
  · simp
  · simp
  · simp

theorem DirRec.User.not_extra (h : r.User) (hok : r.Ok E) : ¬r.Extra := fun hc =>
  ((extra_iff (hok.name_ne h.live)).1 hc).elim h.ne_dot h.ne_dotdot

/-- `strcmp` tells the name of a user from `..`. -/
theorem DirRec.User.strcmp_ne (h : r.User) (hok : r.Ok E) : r.raw.take 3 ≠ [46, 46, 0] := by
  have hbytes := hok.name_bytes h.live
  have hname := hok.name_ne h.live
  have hdot := h.ne_dot
  have hdotdot := h.ne_dotdot
  obtain ⟨ino, reclen, type, name, behind⟩ := r
  unfold DirRec.raw dotName dotdotName at *
  rcases name with _ | ⟨a, _ | ⟨b, _ | ⟨d, name⟩⟩⟩
  · exact absurd rfl hname
  · intro hc
    simp only [List.cons_append, List.take_succ_cons, List.cons.injEq] at hc
    exact hdot (by rw [hc.1])
  · intro hc
    simp only [List.cons_append, List.take_succ_cons, List.cons.injEq] at hc
    exact hdotdot (by rw [hc.1, hc.2.1])
  · intro hc
    simp only [List.cons_append, List.take_succ_cons, List.cons.injEq] at hc
    exact (hbytes d (by simp)).1 hc.2.2.1

/-! ### The state -/

@[simp] theorem Cursor.alter_st (dirp : DirRec) (c : Cursor) : (c.alter dirp).st = c.st := rfl

@[simp] theorem Cursor.alter_dirp (dirp : DirRec) (c : Cursor) : (c.alter dirp).dirp = dirp := rfl

@[simp] theorem Cursor.alter_done (dirp : DirRec) (c : Cursor) : (c.alter dirp).done = c.done := rfl

@[simp] theorem Chk.uncount_i_parent (i : ℕ) (st : Chk) : (st.uncount i).i_parent = st.i_parent := rfl

@[simp] theorem Chk.uncount_i_dotdot (i : ℕ) (st : Chk) : (st.uncount i).i_dotdot = st.i_dotdot := rfl

@[simp] theorem Chk.uncount_entryno (i : ℕ) (st : Chk) : (st.uncount i).entryno = st.entryno := rfl

@[simp] theorem checkType_st (t : ℕ) (c : Cursor) : (checkType E t c).st = c.st := by
  unfold checkType
  split <;> rfl

@[simp] theorem checkType_done (t : ℕ) (c : Cursor) : (checkType E t c).done = c.done := by
  unfold checkType
  split <;> rfl

/-- Only the type of the record changes. -/
theorem checkType_dirp (t : ℕ) (c : Cursor) :
    ∃ u, (checkType E t c).dirp = { c.dirp with e2d_type := u } := by
  unfold checkType
  split
  · exact ⟨t, rfl⟩
  · exact ⟨c.dirp.e2d_type, rfl⟩

/-- What a call does to the state: a directory without a parent may get the one that is scanned, and
`i_dotdot` is set of this one only. -/
structure Moves (N : ℕ) (s t : Chk) : Prop where
  parent : ∀ x, t.i_parent x = s.i_parent x ∨ (s.i_parent x = 0 ∧ t.i_parent x = N)
  dotdot : ∀ d, d ≠ N → t.i_dotdot d = s.i_dotdot d

theorem Moves.refl (N : ℕ) (s : Chk) : Moves N s s := ⟨fun _ => .inl rfl, fun _ _ => rfl⟩

theorem Moves.trans {s t u : Chk} (h : Moves N s t) (h' : Moves N t u) : Moves N s u where
  parent x := by
    rcases h.parent x with h1 | ⟨h0, h1⟩ <;> rcases h'.parent x with h2 | ⟨h0', h2⟩
    · exact .inl (h2.trans h1)
    · exact .inr ⟨h1.symm.trans h0', h2⟩
    · exact .inr ⟨h0, h2.trans h1⟩
    · exact .inr ⟨h0, h2⟩
  dotdot d hd := (h'.dotdot d hd).trans (h.dotdot d hd)

/-- A state with the same parents and values of `..`. -/
theorem Moves.of_eq {s t : Chk} (hp : t.i_parent = s.i_parent) (hd : t.i_dotdot = s.i_dotdot) :
    Moves N s t := ⟨fun _ => .inl (congrFun hp _), fun _ _ => congrFun hd _⟩

theorem Moves.setDotdot (s : Chk) (i : ℤ) : Moves N s (s.setDotdot N i) :=
  ⟨fun _ => .inl rfl, fun _ hd => Function.update_of_ne hd _ _⟩

/-- `checkDot` sets no parent. -/
theorem checkDot_st (c : Cursor) : (checkDot E N c).st.i_parent = c.st.i_parent ∧
    (checkDot E N c).st.i_dotdot = c.st.i_dotdot := by
  unfold checkDot
  simp only
  split
  · rw [checkType_st]
    split <;> exact ⟨rfl, rfl⟩
  · split
    · exact ⟨rfl, rfl⟩
    · split
      · exact ⟨rfl, rfl⟩
      · split <;> exact ⟨rfl, rfl⟩

/-- An inode whose entries stay: a file, or a directory that has no parent yet. -/
def DirEnv.Linkable (E : DirEnv) (i_parent : ℕ → ℕ) (ino : ℕ) : Prop :=
  E.statemap ino = .fstate ∨ ((E.statemap ino = .dstate ∨ E.statemap ino = .dfound) ∧ i_parent ino = 0)

/-- **What the check of an entry does**, in all cases. -/
theorem checkEntry_cases (c : Cursor) :
    (c.dirp.e2d_ino = 0 ∧ checkEntry E N c = c) ∨
    (c.dirp.e2d_ino ≠ 0 ∧ c.dirp.Extra ∧ 2 ≤ c.st.entryno ∧ checkEntry E N c = c.remove) ∨
    (c.dirp.e2d_ino ≠ 0 ∧ ¬(E.InoOk c.dirp.e2d_ino ∧
        (c.st.entryno < 2 ∨ E.Linkable c.st.i_parent c.dirp.e2d_ino)) ∧
      checkEntry E N c = { c with st := c.st.next }.remove) ∨
    (c.dirp.e2d_ino ≠ 0 ∧ c.st.entryno < 2 ∧ checkEntry E N c = { c with st := c.st.next }) ∨
    (c.dirp.e2d_ino ≠ 0 ∧ ∃ t, ∃ st : Chk,
      (st = c.st.next ∨ (2 ≤ c.st.entryno ∧ ¬c.dirp.Extra ∧ c.st.i_parent c.dirp.e2d_ino = 0 ∧
        st = c.st.next.setParent c.dirp.e2d_ino N)) ∧
      checkEntry E N c = checkType E t { c with st := st.uncount c.dirp.e2d_ino }) := by
  by_cases h0 : c.dirp.e2d_ino = 0
  · exact .inl ⟨h0, if_pos h0⟩
  have hunfold : checkEntry E N c = _ := if_neg h0
  by_cases hextra : c.dirp.Extra ∧ 2 ≤ c.st.entryno
  · refine .inr (.inl ⟨h0, hextra.1, hextra.2, hunfold.trans (if_pos ?_)⟩)
    exact ⟨hextra.1.1, hextra.1.2.1, hextra.2, hextra.1.2.2⟩
  replace hunfold := hunfold.trans (if_neg fun hc => hextra ⟨⟨hc.1, hc.2.1, hc.2.2.2⟩, hc.2.2.1⟩)
  have hplain : 2 ≤ c.st.entryno → ¬c.dirp.Extra := fun hk hc => hextra ⟨hc, hk⟩
  by_cases hrange : E.v.maxino < c.dirp.e2d_ino ∨ (c.dirp.e2d_ino < FIRSTINO ∧ c.dirp.e2d_ino ≠ ROOTINO)
  · exact .inr (.inr (.inl ⟨h0, fun hc => hc.1 hrange, hunfold.trans (if_pos hrange)⟩))
  replace hunfold := hunfold.trans (if_neg hrange)
  have hnext : c.st.next.entryno = c.st.entryno + 1 := rfl
  -- the states that are cleared, and those of a directory
  have hcleared : E.statemap c.dirp.e2d_ino = .ustate ∨ E.statemap c.dirp.e2d_ino = .dclear ∨
      E.statemap c.dirp.e2d_ino = .fclear → ¬E.Linkable c.st.i_parent c.dirp.e2d_ino := by
    unfold DirEnv.Linkable
    rintro (h | h | h) <;> rw [h] <;> simp
  by_cases hstate : E.statemap c.dirp.e2d_ino = .ustate ∨ E.statemap c.dirp.e2d_ino = .dclear ∨
      E.statemap c.dirp.e2d_ino = .fclear
  · have heq : checkEntry E N c = if c.st.next.entryno ≤ 2 then { c with st := c.st.next }
        else { c with st := c.st.next }.remove := by
      rcases hstate with h | h | h <;> rw [hunfold, h]
    by_cases hk : c.st.entryno < 2
    · exact .inr (.inr (.inr (.inl ⟨h0, hk, heq.trans (if_pos (by omega))⟩)))
    · refine .inr (.inr (.inl ⟨h0, fun hc => ?_, heq.trans (if_neg (by omega))⟩))
      exact hc.2.elim hk (hcleared hstate)
  by_cases hfile : E.statemap c.dirp.e2d_ino = .fstate
  · rw [hfile] at hunfold
    exact .inr (.inr (.inr (.inr ⟨h0, _, c.st.next, .inl rfl, hunfold⟩)))
  have hdir : E.statemap c.dirp.e2d_ino = .dstate ∨ E.statemap c.dirp.e2d_ino = .dfound := by
    cases h : E.statemap c.dirp.e2d_ino <;> simp [h] at hstate hfile ⊢
  have heq : checkEntry E N c =
      if c.st.i_parent c.dirp.e2d_ino ≠ 0 ∧ 2 < c.st.next.entryno then { c with st := c.st.next }.remove
      else checkType E (E.inoType c.dirp.e2d_ino) { c with st := (if 2 < c.st.next.entryno then
        c.st.next.setParent c.dirp.e2d_ino N else c.st.next).uncount c.dirp.e2d_ino } := by
    rcases hdir with h | h <;> rw [hunfold, h] <;> rfl
  by_cases hk : c.st.entryno < 2
  · rw [if_neg (by omega), if_neg (by omega)] at heq
    exact .inr (.inr (.inr (.inr ⟨h0, _, c.st.next, .inl rfl, heq⟩)))
  by_cases hpar : c.st.i_parent c.dirp.e2d_ino = 0
  · rw [if_neg (fun hc => hc.1 hpar), if_pos (by omega)] at heq
    exact .inr (.inr (.inr (.inr ⟨h0, _, _, .inr ⟨by omega, hplain (by omega), hpar, rfl⟩, heq⟩)))
  · rw [if_pos ⟨hpar, by omega⟩] at heq
    refine .inr (.inr (.inl ⟨h0, fun hc => ?_, heq⟩))
    exact hc.2.elim hk fun hl => hl.elim hfile fun hl => hpar hl.2

/-- The state after the check: from the third entry on the directory becomes the parent of what the entry
names, if that has none and the name is not `.` or `..`. -/
theorem checkEntry_parent (c : Cursor) (x : ℕ) :
    (checkEntry E N c).st.i_parent x = c.st.i_parent x ∨
      (c.st.i_parent x = 0 ∧ (checkEntry E N c).st.i_parent x = N ∧ 2 ≤ c.st.entryno ∧
        ¬c.dirp.Extra ∧ c.dirp.e2d_ino ≠ 0 ∧ x = c.dirp.e2d_ino) := by
  rcases checkEntry_cases (E := E) (N := N) c with ⟨-, h⟩ | ⟨-, -, -, h⟩ | ⟨-, -, h⟩ | ⟨-, -, h⟩ |
      ⟨h0, t, st, rfl | ⟨hk, hextra, hpar, rfl⟩, h⟩ <;> rw [h]
  · exact .inl rfl
  · exact .inl rfl
  · exact .inl rfl
  · exact .inl rfl
  · rw [checkType_st]
    exact .inl rfl
  · rw [checkType_st]
    rcases eq_or_ne x c.dirp.e2d_ino with rfl | hne
    · exact .inr ⟨hpar, Function.update_self .., hk, hextra, h0, rfl⟩
    · exact .inl (Function.update_of_ne hne _ _)

theorem checkEntry_dotdot (c : Cursor) : (checkEntry E N c).st.i_dotdot = c.st.i_dotdot := by
  rcases checkEntry_cases (E := E) (N := N) c with ⟨-, h⟩ | ⟨-, -, -, h⟩ | ⟨-, -, h⟩ | ⟨-, -, h⟩ |
      ⟨-, t, st, rfl | ⟨-, -, -, rfl⟩, h⟩ <;> rw [h]
  · rfl
  · rfl
  · rfl
  · rw [checkType_st]
    rfl
  · rw [checkType_st]
    rfl

/-- One of the first two entries is counted. -/
theorem checkEntry_entryno (c : Cursor) (h0 : c.dirp.e2d_ino ≠ 0) (hk : c.st.entryno < 2) :
    (checkEntry E N c).st.entryno = c.st.entryno + 1 := by
  rcases checkEntry_cases (E := E) (N := N) c with ⟨hc, -⟩ | ⟨-, -, hc, -⟩ | ⟨-, -, h⟩ | ⟨-, -, h⟩ |
      ⟨-, t, st, rfl | ⟨hc, -⟩, h⟩
  · exact absurd hc h0
  · omega
  · rw [h]
    rfl
  · rw [h]
    rfl
  · rw [h, checkType_st]
    rfl
  · omega

theorem checkEntry_entryno_le (c : Cursor) : c.st.entryno ≤ (checkEntry E N c).st.entryno := by
  rcases checkEntry_cases (E := E) (N := N) c with ⟨-, h⟩ | ⟨-, -, -, h⟩ | ⟨-, -, h⟩ | ⟨-, -, h⟩ |
      ⟨-, t, st, rfl | ⟨-, -, -, rfl⟩, h⟩ <;> rw [h]
  · exact le_rfl
  · exact Nat.le_succ _
  · exact Nat.le_succ _
  · rw [checkType_st]
    exact Nat.le_succ _
  · rw [checkType_st]
    exact Nat.le_succ _

theorem checkEntry_done (c : Cursor) : (checkEntry E N c).done = c.done := by
  rcases checkEntry_cases (E := E) (N := N) c with ⟨-, h⟩ | ⟨-, -, -, h⟩ | ⟨-, -, h⟩ | ⟨-, -, h⟩ |
      ⟨-, t, st, -, h⟩ <;> rw [h]
  · rfl
  · rfl
  · rw [checkType_done]

/-- The check of an entry changes its type, or takes it out. -/
theorem checkEntry_dirp (c : Cursor) : ∃ t i, (i = c.dirp.e2d_ino ∨ i = 0) ∧
    (checkEntry E N c).dirp = { c.dirp with e2d_ino := i, e2d_type := t } := by
  rcases checkEntry_cases (E := E) (N := N) c with ⟨-, h⟩ | ⟨-, -, -, h⟩ | ⟨-, -, h⟩ | ⟨-, -, h⟩ |
      ⟨-, t, st, -, h⟩ <;> rw [h]
  · exact ⟨c.dirp.e2d_type, c.dirp.e2d_ino, .inl rfl, rfl⟩
  · exact ⟨c.dirp.e2d_type, 0, .inr rfl, rfl⟩
  · exact ⟨c.dirp.e2d_type, 0, .inr rfl, rfl⟩
  · exact ⟨c.dirp.e2d_type, c.dirp.e2d_ino, .inl rfl, rfl⟩
  · obtain ⟨u, hu⟩ := checkType_dirp (E := E) t { c with st := st.uncount c.dirp.e2d_ino }
    exact ⟨u, c.dirp.e2d_ino, .inl rfl, hu⟩

/-- An entry that is not an extra `.` or `..`, whose inode is in range, stays if it is one of the first
two or its inode may be linked. -/
theorem checkEntry_same (c : Cursor) (hextra : c.st.entryno < 2 ∨ ¬c.dirp.Extra) (hino : E.InoOk c.dirp.e2d_ino)
    (hlink : c.st.entryno < 2 ∨ E.Linkable c.st.i_parent c.dirp.e2d_ino) :
    c.dirp.Same (checkEntry E N c).dirp := by
  rcases checkEntry_cases (E := E) (N := N) c with ⟨-, h⟩ | ⟨-, hc, hk, -⟩ | ⟨-, hc, -⟩ | ⟨-, -, h⟩ |
      ⟨-, t, st, -, h⟩
  · rw [h]
    exact .refl _
  · exact hextra.elim (fun h => by omega) fun h => absurd hc h
  · exact absurd ⟨hino, hlink⟩ hc
  · rw [h]
    exact .refl _
  · obtain ⟨u, hu⟩ := checkType_dirp (E := E) t { c with st := st.uncount c.dirp.e2d_ino }
    rw [h, hu]
    exact ⟨rfl, rfl⟩

/-- **Every call** moves the state. -/
theorem checkEntry_moves (c : Cursor) : Moves N c.st (checkEntry E N c).st :=
  ⟨fun x => (checkEntry_parent c x).imp id fun h => ⟨h.1, h.2.1⟩, fun _ _ => by rw [checkEntry_dotdot]⟩

theorem Cursor.count_st (c : Cursor) : c.count.st.i_parent = c.st.i_parent ∧
    c.count.st.i_dotdot = c.st.i_dotdot ∧ c.count.st.entryno = c.st.entryno + 1 := by
  unfold Cursor.count
  simp only
  split <;> exact ⟨rfl, rfl, rfl⟩

theorem missingDotdot_st (c : Cursor) : (missingDotdot E N c).st.i_parent = c.st.i_parent ∧
    (missingDotdot E N c).st.entryno = c.st.entryno ∧
    (missingDotdot E N c).done = c.done ∧
    ∀ d, d ≠ N → (missingDotdot E N c).st.i_dotdot d = c.st.i_dotdot d := by
  have hset : ∀ i d, d ≠ N → (c.st.setDotdot N i).i_dotdot d = c.st.i_dotdot d :=
    fun i d hd => Function.update_of_ne hd _ _
  unfold missingDotdot
  simp only
  split
  · exact ⟨rfl, rfl, rfl, hset _⟩
  · split
    · exact ⟨rfl, rfl, rfl, hset _⟩
    · split
      · exact ⟨rfl, rfl, rfl, hset _⟩
      · exact ⟨rfl, rfl, rfl, fun _ _ => rfl⟩

theorem checkDotdot_moves (c : Cursor) : Moves N c.st (checkDotdot E N c).st := by
  unfold checkDotdot
  simp only
  split
  · refine Moves.trans ?_ (checkEntry_moves _)
    rw [checkType_st]
    exact .setDotdot _ _
  · obtain ⟨h1, h2, -⟩ := (missingDotdot E N c).count_st
    obtain ⟨h3, -, -, h4⟩ := missingDotdot_st (E := E) (N := N) c
    exact ⟨fun x => .inl (by rw [h1, h3]), fun d hd => by rw [h2, h4 d hd]⟩

theorem checkSecond_moves (c : Cursor) : Moves N c.st (checkSecond E N c).st := by
  unfold checkSecond
  split
  · exact checkEntry_moves c
  · split
    · split
      · exact checkEntry_moves c
      · refine Moves.trans ?_ (checkDotdot_moves _)
        exact .of_eq rfl rfl
    · exact checkDotdot_moves c

/-- **Every call of `pass2check`** moves the state. -/
theorem pass2check_moves (r : DirRec) (st : Chk) : Moves N st (pass2check E N r st).st := by
  refine Moves.trans ?_ (checkSecond_moves _)
  split
  · obtain ⟨h1, h2⟩ := checkDot_st (E := E) (N := N) ⟨[], r, false, st⟩
    exact .of_eq h1 h2
  · exact .refl _ _

/-! ### The records -/

/-- What stands in the block after a call. -/
theorem pass2check_out (r : DirRec) (st : Chk) : (onRec (pass2check E N) r st).out =
    if (checked E N r st).altered then (checked E N r st).recs else [r] := rfl

/-- The records in `dbuf` are in order and take `n` bytes. -/
structure Cursor.Sound (E : DirEnv) (n : ℕ) (c : Cursor) : Prop where
  recs_ok : ∀ r ∈ c.recs, r.Ok E
  fills : space DirRec.e2d_reclen c.recs = n

variable {n m : ℕ}

theorem Cursor.Sound.dirp (h : c.Sound E n) : c.dirp.Ok E := h.recs_ok _ (by simp [Cursor.recs])

/-- Another record of the same length. -/
theorem Cursor.Sound.change (h : c.Sound E n) {dirp : DirRec} (hok : dirp.Ok E)
    (hlen : dirp.e2d_reclen = c.dirp.e2d_reclen) (altered : Bool) (st : Chk) :
    (⟨c.done, dirp, altered, st⟩ : Cursor).Sound E n where
  recs_ok r hr := (List.mem_append.1 hr).elim (fun hd => h.recs_ok r (List.mem_append_left _ hd))
    fun hd => by rwa [List.mem_singleton.1 hd]
  fills := by
    have := h.fills
    simp only [Cursor.recs, space_append, space_cons, space_nil] at this ⊢
    omega

theorem Cursor.Sound.ofRec (h : r.Ok E) (altered : Bool) (st : Chk) :
    (⟨[], r, altered, st⟩ : Cursor).Sound E r.e2d_reclen :=
  ⟨fun x hx => by rwa [List.mem_singleton.1 hx], by simp [Cursor.recs]⟩

theorem DirRec.Ok.withType (h : r.Ok E) (t : ℕ) : DirRec.Ok E { r with e2d_type := t } :=
  ⟨h.ino_le, h.aligned, h.min_le, h.fits, h.name_ne, h.name_le, h.name_bytes⟩

theorem DirRec.Ok.withIno (h : r.Ok E) {i : ℕ} (hi : i ≤ E.v.maxino) (hlive : i ≠ 0 → r.e2d_ino ≠ 0) :
    DirRec.Ok E { r with e2d_ino := i } :=
  ⟨hi, h.aligned, h.min_le, fun hc => h.fits (hlive hc), fun hc => h.name_ne (hlive hc),
    fun hc => h.name_le (hlive hc), fun hc => h.name_bytes (hlive hc)⟩

theorem unusedRec_ok (hn : 12 ≤ n) (h4 : 4 ∣ n) : (unusedRec n).Ok E :=
  ⟨Nat.zero_le _, h4, hn, fun h => absurd rfl h, fun h => absurd rfl h, fun h => absurd rfl h,
    fun h => absurd rfl h⟩

/-- One of the two entries of `pass2check` itself. -/
theorem protoRec_ok {ino : ℕ} {name : List UInt8} (hino : ino ≤ E.v.maxino) (hn : 12 ≤ n) (h4 : 4 ∣ n)
    (hname : name = dotName ∨ name = dotdotName) : (protoRec E ino n name).Ok E := by
  have hlen : dirRecLen name.length = 12 := by rcases hname with rfl | rfl <;> rfl
  have hshape : name ≠ [] ∧ name.length ≤ EXT2FS_MAXNAMLEN ∧ ∀ c ∈ name, c ≠ 0 ∧ c ≠ 47 := by
    rcases hname with rfl | rfl <;> simp [dotName, dotdotName, EXT2FS_MAXNAMLEN]
  exact ⟨hino, h4, hn, fun _ => hlen.trans_le hn, fun _ => hshape.1, fun _ => hshape.2.1, fun _ => hshape.2.2⟩

theorem Cursor.Sound.checkType (h : c.Sound E n) (t : ℕ) : (checkType E t c).Sound E n := by
  unfold Fsck.checkType
  split
  · exact h.change (h.dirp.withType t) rfl _ _
  · exact h

theorem Cursor.Sound.splitOff (h : c.Sound E n) (hm : 12 ≤ m) (h4 : 4 ∣ m) (hle : m + 12 ≤ c.dirp.e2d_reclen)
    (hfit : c.dirp.e2d_ino ≠ 0 → dirRecLen c.dirp.namlen ≤ m) : (c.splitOff m).Sound E n where
  recs_ok r hr := by
    have hd := h.dirp
    rcases List.mem_append.1 hr with hr | hr
    · rcases List.mem_append.1 hr with hr | hr
      · exact h.recs_ok r (List.mem_append_left _ hr)
      · rw [List.mem_singleton.1 hr]
        exact ⟨hd.ino_le, h4, hm, hfit, hd.name_ne, hd.name_le, hd.name_bytes⟩
    · rw [List.mem_singleton.1 hr]
      exact unusedRec_ok (by omega) (Nat.dvd_sub hd.aligned h4)
  fills := by
    have := h.fills
    simp only [Cursor.recs, Cursor.splitOff, unusedRec, space_append, space_cons, space_nil] at this ⊢
    omega

theorem Cursor.Sound.checkEntry (h : c.Sound E n) : (checkEntry E N c).Sound E n := by
  obtain ⟨t, i, hi, hdirp⟩ := checkEntry_dirp (E := E) (N := N) c
  have hok : DirRec.Ok E { c.dirp with e2d_ino := i, e2d_type := t } := by
    refine (h.dirp.withIno (i := i) ?_ ?_).withType t
    · rcases hi with rfl | rfl
      · exact h.dirp.ino_le
      · exact Nat.zero_le _
    · rintro h0
      exact fun hc => h0 (hi.elim (fun hi => hi.trans hc) id)
  have := h.change hok rfl (Fsck.checkEntry E N c).altered (Fsck.checkEntry E N c).st
  rwa [← hdirp, ← checkEntry_done (E := E) (N := N) c] at this

theorem Cursor.Sound.checkDot (h : c.Sound E n) (hnum : N ≤ E.v.maxino) :
    (checkDot E N c).Sound E n := by
  have hd := h.dirp
  unfold Fsck.checkDot
  simp only
  split
  next hdot =>
    refine Cursor.Sound.checkType ?_ _
    split
    · exact h.change (hd.withIno hnum fun _ => hdot.1) rfl _ _
    · exact h
  · split
    · exact h
    · split
      · exact h
      · have hproto : (protoRec E N c.dirp.e2d_reclen dotName).Ok E :=
          protoRec_ok hnum hd.pos hd.aligned (.inl rfl)
        have halter : (c.alter (protoRec E N c.dirp.e2d_reclen dotName)).Sound E n :=
          h.change hproto rfl _ _
        rw [dirRecLen_one]
        split
        · exact halter
        next hbig =>
          have hlen : 2 * 12 ≤ c.dirp.e2d_reclen := not_lt.1 hbig
          exact halter.splitOff le_rfl (by decide) (show 12 + 12 ≤ c.dirp.e2d_reclen by omega)
            fun _ => dirRecLen_one.le

theorem Cursor.Sound.checkDotdot (h : c.Sound E n) (hpar : c.st.i_parent N ≤ E.v.maxino) :
    (checkDotdot E N c).Sound E n := by
  have hd := h.dirp
  have hst : ∀ c' : Cursor, c'.Sound E n → ∀ st, ({ c' with st := st } : Cursor).Sound E n :=
    fun c' h' st => h'.change h'.dirp rfl _ _
  unfold Fsck.checkDotdot
  simp only
  split
  · exact ((hst c h _).checkType _).checkEntry
  · refine hst _ ?_ _
    unfold missingDotdot
    simp only
    split
    · exact hst c h _
    · split
      · exact hst c h _
      · split
        · exact h.change (protoRec_ok hpar hd.pos hd.aligned (.inr rfl)) rfl _ _
        · exact h

theorem dirRecLen_min {n : ℕ} (h : n ≠ 0) : 12 ≤ dirRecLen n := by
  unfold dirRecLen
  omega

/-- The space that the entry of the first record needs, `.` if it is not in use. -/
def DirRec.firstLen (r : DirRec) : ℕ := if r.e2d_ino ≠ 0 then dirRecLen r.namlen else dirRecLen 1

theorem DirRec.Ok.firstLen (h : r.Ok E) : 12 ≤ r.firstLen ∧ r.firstLen ≤ r.e2d_reclen ∧ 4 ∣ r.firstLen := by
  unfold DirRec.firstLen
  split
  next hlive =>
    refine ⟨dirRecLen_min fun hc => h.name_ne hlive (List.length_eq_zero_iff.1 hc), h.fits hlive, dirRecLen_dvd _⟩
  · exact ⟨le_rfl, h.min_le, dirRecLen_dvd 1⟩

/-- The record that `strcmp` takes for `..`, or that is not in use, has room for `.`. -/
theorem DirRec.Ok.firstLen_free (h : r.Ok E) (hdot : ¬(r.e2d_ino ≠ 0 ∧ r.e2d_name = dotName))
    (hfree : ¬(r.e2d_ino ≠ 0 ∧ r.raw.take 3 ≠ [46, 46, 0])) : r.firstLen = 12 ∧ ¬r.User := by
  have huser : ¬r.User := fun hu => hfree ⟨hu.live, hu.strcmp_ne h⟩
  refine ⟨?_, huser⟩
  unfold DirRec.firstLen
  split
  next hlive =>
    have hname : r.e2d_name = dotdotName := by
      by_contra hne
      exact huser ⟨hlive, fun hc => hdot ⟨hlive, hc⟩, hne⟩
    rw [DirRec.namlen, hname]
    rfl
  · rfl

/-- **The check for `.`** leaves an entry in the record, which it changes only if it is not one of the
user, or splits it. -/
theorem checkDot_cases (hok : c.dirp.Ok E) (hnum : N ≠ 0) :
    ((checkDot E N c).done = c.done ∧ (checkDot E N c).st = c.st ∧
      (checkDot E N c).dirp.e2d_ino ≠ 0 ∧
      (checkDot E N c).dirp.e2d_reclen = c.dirp.e2d_reclen ∧
      dirRecLen (checkDot E N c).dirp.namlen = c.dirp.firstLen ∧
      (c.dirp.User → checkDot E N c = c)) ∨
    (c.dirp.firstLen = 12 ∧ 24 ≤ c.dirp.e2d_reclen ∧ ¬c.dirp.User ∧ checkDot E N c =
      (c.alter (protoRec E N c.dirp.e2d_reclen dotName)).splitOff (dirRecLen 1)) := by
  have hpos := hok.pos
  by_cases hdot : c.dirp.e2d_ino ≠ 0 ∧ c.dirp.e2d_name = dotName
  · left
    have heq : checkDot E N c = _ := if_pos hdot
    have hlen : c.dirp.firstLen = dirRecLen c.dirp.namlen := if_pos hdot.1
    obtain ⟨c', hc', hdone, hst, hino, hrec, hname⟩ : ∃ c' : Cursor,
        checkDot E N c = checkType E EXT2_FT_DIR c' ∧ c'.done = c.done ∧ c'.st = c.st ∧
        c'.dirp.e2d_ino ≠ 0 ∧ c'.dirp.e2d_reclen = c.dirp.e2d_reclen ∧ c'.dirp.e2d_name = c.dirp.e2d_name := by
      refine ⟨_, heq, ?_⟩
      split
      · exact ⟨rfl, rfl, hnum, rfl, rfl⟩
      · exact ⟨rfl, rfl, hdot.1, rfl, rfl⟩
    obtain ⟨t, ht⟩ := checkType_dirp (E := E) EXT2_FT_DIR c'
    rw [hc', checkType_done, checkType_st, ht]
    refine ⟨hdone, hst, hino, hrec, ?_, fun hu => absurd hdot.2 hu.ne_dot⟩
    rw [hlen]
    show dirRecLen c'.dirp.e2d_name.length = _
    rw [hname]
    rfl
  have hunfold : checkDot E N c = _ := if_neg hdot
  by_cases hcannot : c.dirp.e2d_ino ≠ 0 ∧ c.dirp.raw.take 3 ≠ [46, 46, 0]
  · replace hunfold := hunfold.trans (if_pos hcannot)
    rw [hunfold]
    exact .inl ⟨rfl, rfl, hcannot.1, rfl, (if_pos hcannot.1).symm, fun _ => rfl⟩
  obtain ⟨hfirst, huser⟩ := hok.firstLen_free hdot hcannot
  replace hunfold := hunfold.trans ((if_neg hcannot).trans (if_neg (by rw [dirRecLen_one]; omega)))
  rw [dirRecLen_one] at hunfold
  by_cases hsmall : c.dirp.e2d_reclen < 2 * 12
  · rw [hunfold, if_pos hsmall]
    exact .inl ⟨rfl, rfl, hnum, rfl, dirRecLen_one.trans hfirst.symm, fun hu => absurd hu huser⟩
  · rw [hunfold, if_neg hsmall]
    exact .inr ⟨hfirst, by omega, huser, rfl⟩

theorem Cursor.Sound.checkSecond (h : c.Sound E n) (hpar : c.st.i_parent N ≤ E.v.maxino)
    (hlive : c.st.entryno = 0 → c.dirp.e2d_ino ≠ 0) : (checkSecond E N c).Sound E n := by
  unfold Fsck.checkSecond
  split
  · exact h.checkEntry
  · split
    next hk =>
      have hname : c.dirp.namlen ≠ 0 := fun hc => h.dirp.name_ne (hlive hk) (List.length_eq_zero_iff.1 hc)
      split
      · exact h.checkEntry
      next hroom =>
        rw [dirRecLen_two, not_lt] at hroom
        exact (h.splitOff (dirRecLen_min hname) (dirRecLen_dvd _) hroom fun _ => le_rfl).checkDotdot hpar
    · exact h.checkDotdot hpar

/-- **The records that `pass2check` leaves** are in order, and take the space of the one that came. -/
theorem pass2check_sound (hr : r.Ok E) (hnum : N ≠ 0) (hle : N ≤ E.v.maxino)
    (hpar : st.i_parent N ≤ E.v.maxino) :
    (∀ x ∈ (onRec (pass2check E N) r st).out, x.Ok E) ∧
      space DirRec.e2d_reclen (onRec (pass2check E N) r st).out = r.e2d_reclen := by
  have hstart : (⟨[], r, false, st⟩ : Cursor).Sound E r.e2d_reclen := .ofRec hr _ _
  have hend : (checked E N r st).Sound E r.e2d_reclen := by
    unfold checked
    simp only
    split
    next hk =>
      refine (hstart.checkDot hle).checkSecond ?_ ?_
      · rw [(checkDot_st _).1]
        exact hpar
      · intro hk'
        rcases checkDot_cases (c := ⟨[], r, false, st⟩) hr hnum with ⟨-, -, hlive, -⟩ | ⟨-, -, -, heq⟩
        · exact hlive
        · rw [heq] at hk'
          exact absurd hk' (Nat.succ_ne_zero _)
    next hk => exact hstart.checkSecond hpar fun hc => absurd hc hk
  rw [pass2check_out]
  split
  · exact ⟨hend.recs_ok, hend.fills⟩
  · exact ⟨fun x hx => by rwa [List.mem_singleton.1 hx], by simp⟩

/-! ### The first record, the second, and the others -/

/-- Before the third entry no parent is set. -/
theorem checkEntry_early (c : Cursor) (hk : c.st.entryno < 2) :
    (checkEntry E N c).st.i_parent = c.st.i_parent := by
  funext x
  rcases checkEntry_parent (E := E) (N := N) c x with h | ⟨-, -, h, -⟩
  · exact h
  · omega

/-- The check for `..` counts the record, and leaves what stands before it. -/
theorem checkDotdot_spec (c : Cursor) (hk : c.st.entryno = 1) :
    (checkDotdot E N c).done = c.done ∧ (checkDotdot E N c).st.entryno = 2 ∧
      (checkDotdot E N c).st.i_parent = c.st.i_parent := by
  by_cases hdd : c.dirp.e2d_ino ≠ 0 ∧ c.dirp.e2d_name = dotdotName
  · have heq : checkDotdot E N c = _ := if_pos hdd
    obtain ⟨u, hu⟩ := checkType_dirp (E := E) EXT2_FT_DIR { c with st := c.st.setDotdot N c.dirp.e2d_ino }
    have hst := checkType_st (E := E) EXT2_FT_DIR { c with st := c.st.setDotdot N c.dirp.e2d_ino }
    have hlt : c.st.entryno < 2 := by omega
    rw [heq]
    refine ⟨?_, ?_, ?_⟩
    · rw [checkEntry_done, checkType_done]
    · rw [checkEntry_entryno _ (by rw [hu]; exact hdd.1) (by rw [hst]; exact hlt), hst]
      show c.st.entryno + 1 = 2
      rw [hk]
    · rw [checkEntry_early _ (by rw [hst]; exact hlt), hst]
      rfl
  · have heq : checkDotdot E N c = (missingDotdot E N c).count := if_neg hdd
    obtain ⟨h1, -, h2⟩ := (missingDotdot E N c).count_st
    obtain ⟨h3, h4, h5, -⟩ := missingDotdot_st (E := E) (N := N) c
    rw [heq]
    exact ⟨h5, by rw [h2, h4, hk], by rw [h1, h3]⟩

/-- What the first record leaves, when its check ends without a mark. -/
theorem stays_of_checked (h : ∃ e rest, (checked E N r st).recs = e :: rest ∧ r.Same e) :
    ∃ e rest, (onRec (pass2check E N) r st).out = e :: rest ∧ r.Same e := by
  rw [pass2check_out]
  split
  · exact h
  · exact ⟨r, [], rfl, .refl r⟩

theorem stays_of_entry (h : checked E N r st = checkEntry E N ⟨[], r, false, st⟩)
    (hsame : r.Same (checkEntry E N ⟨[], r, false, st⟩).dirp) :
    ∃ e rest, (onRec (pass2check E N) r st).out = e :: rest ∧ r.Same e := by
  refine stays_of_checked ⟨_, [], ?_, hsame⟩
  rw [h]
  unfold Cursor.recs
  rw [checkEntry_done]
  rfl

/-- **The first record**: it is counted for two when it has room for `..`; an entry of the user stays. -/
theorem pass2check_first (hr : r.Ok E) (hnum : N ≠ 0) (hk : st.entryno = 0) :
    (onRec (pass2check E N) r st).st.entryno = (if r.e2d_reclen < r.firstLen + 12 then 1 else 2) ∧
    (onRec (pass2check E N) r st).st.i_parent = st.i_parent ∧
    (r.User → E.InoOk r.e2d_ino →
      ∃ e rest, (onRec (pass2check E N) r st).out = e :: rest ∧ r.Same e) := by
  show (checked E N r st).st.entryno = _ ∧ (checked E N r st).st.i_parent = _ ∧ _
  have hstart : checked E N r st = checkSecond E N (checkDot E N ⟨[], r, false, st⟩) := by
    unfold checked
    simp only
    rw [if_pos hk]
  rcases checkDot_cases (E := E) (N := N) (c := ⟨[], r, false, st⟩) hr hnum with
    ⟨hdone, hst, hlive, hlen, hneed, huser⟩ | ⟨hneed, hbig, huser, heq⟩
  · -- an entry stands in the record
    have hsplit : checked E N r st =
        if r.e2d_reclen < r.firstLen + 12 then checkEntry E N (checkDot E N ⟨[], r, false, st⟩)
        else checkDotdot E N ((checkDot E N ⟨[], r, false, st⟩).splitOff r.firstLen) := by
      rw [hstart, checkSecond, hst, if_neg (by rw [hk]; decide), if_pos hk, hlen, hneed, dirRecLen_two]
    have hk0 : (checkDot E N ⟨[], r, false, st⟩).st.entryno = 0 := by rw [hst, hk]
    by_cases hroom : r.e2d_reclen < r.firstLen + 12
    · rw [if_pos hroom] at hsplit ⊢
      refine ⟨?_, ?_, fun hu hino => stays_of_entry (by rw [hsplit, huser hu]) ?_⟩
      · rw [hsplit, checkEntry_entryno _ hlive (by omega), hk0]
      · rw [hsplit, checkEntry_early _ (by omega), hst]
      · exact checkEntry_same ⟨[], r, false, st⟩ (.inl (by show st.entryno < 2; omega)) hino
          (.inl (by show st.entryno < 2; omega))
    · rw [if_neg hroom] at hsplit ⊢
      have hk1 : ((checkDot E N ⟨[], r, false, st⟩).splitOff r.firstLen).st.entryno = 1 :=
        congrArg (· + 1) hk0
      obtain ⟨h1, h2, h3⟩ := checkDotdot_spec (E := E) (N := N) _ hk1
      refine ⟨?_, ?_, fun hu hino => stays_of_checked ?_⟩
      · rw [hsplit, h2]
      · rw [hsplit, h3]
        show (checkDot E N ⟨[], r, false, st⟩).st.i_parent = st.i_parent
        rw [hst]
      · rw [hsplit]
        unfold Cursor.recs
        rw [h1, huser hu]
        exact ⟨_, _, rfl, rfl, rfl⟩
  · -- the record is not in use, or `strcmp` has found `..` in it
    have hk1 : (checkDot E N ⟨[], r, false, st⟩).st.entryno = 1 := by
      rw [heq]
      exact congrArg (· + 1) hk
    have hsplit : checked E N r st = checkDotdot E N (checkDot E N ⟨[], r, false, st⟩) := by
      rw [hstart, checkSecond, if_neg (by omega), if_neg (by omega)]
    obtain ⟨-, h2, h3⟩ := checkDotdot_spec (E := E) (N := N) _ hk1
    have hneed : r.firstLen = 12 := hneed
    have hbig : 24 ≤ r.e2d_reclen := hbig
    refine ⟨?_, ?_, fun hu => absurd hu huser⟩
    · rw [hsplit, h2, if_neg (by omega)]
    · rw [hsplit, h3, heq]
      rfl

/-- **The second record**: an entry of the user stays if its name is of one byte or the parent is not
known. -/
theorem pass2check_second (hr : r.Ok E) (hk : st.entryno = 1) :
    (onRec (pass2check E N) r st).st.entryno = 2 ∧
    (onRec (pass2check E N) r st).st.i_parent = st.i_parent ∧
    (r.User → r.namlen = 1 ∨ st.i_parent N = 0 → (onRec (pass2check E N) r st).out = [r]) ∧
    (r.User → r.namlen ≠ 1 → st.i_parent N ≠ 0 →
      (onRec (pass2check E N) r st).out = [protoRec E (st.i_parent N) r.e2d_reclen dotdotName] ∧
      (onRec (pass2check E N) r st).st.i_dotdot N = st.i_parent N) := by
  have hsplit : checked E N r st = checkDotdot E N ⟨[], r, false, st⟩ := by
    unfold checked
    simp only
    rw [if_neg (by omega), checkSecond, if_neg (show ¬1 < st.entryno by omega),
      if_neg (show ¬st.entryno = 0 by omega)]
  obtain ⟨-, h2, h3⟩ := checkDotdot_spec (E := E) (N := N) ⟨[], r, false, st⟩ hk
  have hpos := hr.pos
  rw [pass2check_out]
  show (checked E N r st).st.entryno = _ ∧ (checked E N r st).st.i_parent = _ ∧ _ ∧
    (_ → _ → _ → _ ∧ (checked E N r st).st.i_dotdot N = _)
  rw [hsplit]
  -- an entry of the user is not `..`, and not `.` either
  have hmissing : r.User → checkDotdot E N ⟨[], r, false, st⟩ =
      (missingDotdot E N ⟨[], r, false, st⟩).count := fun hu => if_neg fun hc => hu.ne_dotdot hc.2
  have hdot : r.User → r.namlen = 1 → r.raw[0]? ≠ some 46 := fun hu h1 hc =>
    hu.not_extra hr ⟨by omega, hc, .inl h1⟩
  have hroom : ¬r.e2d_reclen < dirRecLen 2 := by rw [dirRecLen_two]; omega
  refine ⟨h2, h3, fun hu hkeep => ?_, fun hu hlen hpar => ?_⟩
  · have hplain : (missingDotdot E N ⟨[], r, false, st⟩).altered = false := by
      unfold missingDotdot
      simp only
      by_cases h1 : r.namlen = 1
      · rw [if_pos ⟨hu.live, h1, hdot hu h1⟩]
      · rw [if_neg fun hc => h1 hc.2.1, if_neg hroom, if_neg fun hc => hc (hkeep.resolve_left h1)]
    rw [hmissing hu, if_neg (by rw [Cursor.count, hplain]; decide)]
  · have hover : missingDotdot E N ⟨[], r, false, st⟩ =
        ⟨[], protoRec E (st.i_parent N) r.e2d_reclen dotdotName, true,
          st.setDotdot N (st.i_parent N)⟩ := by
      unfold missingDotdot
      simp only
      rw [if_neg fun hc => hlen hc.2.1, if_neg hroom, if_pos hpar]
      rfl
    rw [hmissing hu, hover, (Cursor.count_st _).2.1]
    exact ⟨rfl, Function.update_self ..⟩

/-- **The other records**: an entry of the user stays if its inode may be linked, and a parent is set only
of what an entry of the user names. -/
theorem pass2check_later (hr : r.Ok E) (hk : 2 ≤ st.entryno) :
    2 ≤ (onRec (pass2check E N) r st).st.entryno ∧
    (onRec (pass2check E N) r st).st.i_dotdot = st.i_dotdot ∧
    (∀ x, (onRec (pass2check E N) r st).st.i_parent x = st.i_parent x ∨ (r.User ∧ x = r.e2d_ino)) ∧
    (r.User → E.InoOk r.e2d_ino → E.Linkable st.i_parent r.e2d_ino →
      ∃ e rest, (onRec (pass2check E N) r st).out = e :: rest ∧ r.Same e) := by
  have hsplit : checked E N r st = checkEntry E N ⟨[], r, false, st⟩ := by
    unfold checked
    simp only
    rw [if_neg (by omega), checkSecond, if_pos (show 1 < st.entryno by omega)]
  show 2 ≤ (checked E N r st).st.entryno ∧ (checked E N r st).st.i_dotdot = _ ∧
    (∀ x, (checked E N r st).st.i_parent x = _ ∨ _) ∧ _
  rw [hsplit]
  refine ⟨hk.trans (checkEntry_entryno_le ⟨[], r, false, st⟩), checkEntry_dotdot _, fun x => ?_, fun hu hino hlink => ?_⟩
  · rcases checkEntry_parent (E := E) (N := N) ⟨[], r, false, st⟩ x with
      h | ⟨-, -, -, hextra, hlive, hx⟩
    · exact .inl h
    · refine .inr ⟨⟨hlive, fun hc => ?_, fun hc => ?_⟩, hx⟩
      · exact hextra ((extra_iff (hr.name_ne hlive)).2 (.inl hc))
      · exact hextra ((extra_iff (hr.name_ne hlive)).2 (.inr hc))
  · exact stays_of_entry hsplit
      (checkEntry_same ⟨[], r, false, st⟩ (.inr (hu.not_extra hr)) hino (.inr hlink))

end Ext2fs.Fsck
