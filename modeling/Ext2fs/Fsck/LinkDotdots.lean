import Ext2fs.Fsck.LinkCounts

/-!
# The counts in the second loop of pass 2

The second loop puts `..` right, and moves the count with it: one more is left for the inode that `..`
named, one less for the parent.  It does so by the value of `i_dotdot`, and changes the first record with
the name `..`.  Where `..` is missing it takes one off the parent and makes the entry, and does not ask
whether `makeentry` could.

* `DotdotStands` — `i_dotdot` is what the first `..` names; `scan_stands`: the first loop leaves it so;
* `makeentry_tally`, `changeino_tally` — the two ways in which an entry changes;
* `fixDotdot_balance` — a directory; **`pass2_balance`** — the whole pass, with what could not be made.
-/

namespace Ext2fs.Fsck

open Splice

variable {E : DirEnv} {N D i : ℕ} {c : Cursor} {st : Chk} {r : DirRec} {s t : Pass2State}

/-! ### The first two records -/

/-- A record that `strcmp` takes for `..` if it has that name. -/
def DirRec.Ends (r : DirRec) : Prop := r.e2d_name = dotdotName → r.raw.take 3 = [46, 46, 0]

/-- What pass 2 knows of `..`: nothing, that it cannot be made, that it is right, or what the first record
with that name names. -/
def Stands (E : DirEnv) (l : List DirRec) (parent : ℕ) (dotdot : ℤ) : Prop :=
  dotdot = 0 ∨ dotdot = -1 ∨ dotdot = parent ∨
    ∃ pre r post, l = pre ++ r :: post ∧ (∀ q ∈ pre, q.e2d_name ≠ dotdotName) ∧ r.e2d_name = dotdotName ∧
      ∀ i, E.Live i → (r.e2d_ino = i ↔ dotdot = i)

theorem Stands.append {l : List DirRec} {parent : ℕ} {dotdot : ℤ} (h : Stands E l parent dotdot) (l' : List DirRec) :
    Stands E (l ++ l') parent dotdot := by
  rcases h with h | h | h | ⟨pre, r, post, rfl, h⟩
  · exact .inl h
  · exact .inr (.inl h)
  · exact .inr (.inr (.inl h))
  · exact .inr (.inr (.inr ⟨pre, r, post ++ l', by simp, h⟩))

/-- Records with other names may stand in front. -/
theorem Stands.behind {l l' : List DirRec} {parent : ℕ} {dotdot : ℤ} (h : Stands E l parent dotdot)
    (hl' : ∀ q ∈ l', q.e2d_name ≠ dotdotName) : Stands E (l' ++ l) parent dotdot := by
  rcases h with h | h | h | ⟨pre, r, post, rfl, hpre, h⟩
  · exact .inl h
  · exact .inr (.inl h)
  · exact .inr (.inr (.inl h))
  · refine .inr (.inr (.inr ⟨l' ++ pre, r, post, by simp, fun q hq => ?_, h⟩))
    exact (List.mem_append.1 hq).elim (hl' q) (hpre q)

/-- The parent that is known, or none: `..` is right, cannot be made, or is not there. -/
theorem missingDotdot_known (c : Cursor) (h : c.st.i_dotdot N = 0) :
    (missingDotdot E N c).st.i_dotdot N = 0 ∨ (missingDotdot E N c).st.i_dotdot N = -1 ∨
      (missingDotdot E N c).st.i_dotdot N = c.st.i_parent N := by
  have hset : ∀ x, (c.st.setDotdot N x).i_dotdot N = x := fun x => Function.update_self ..
  unfold missingDotdot
  simp only
  split
  · exact .inr (.inl (hset _))
  · split
    · exact .inr (.inl (hset _))
    · split
      · exact .inr (.inr (hset _))
      · exact .inl h

theorem checkEntry_name (c : Cursor) : (checkEntry E N c).dirp.e2d_name = c.dirp.e2d_name := by
  obtain ⟨t, x, -, h⟩ := checkEntry_dirp (E := E) (N := N) c
  rw [h]

theorem checkType_name (t : ℕ) (c : Cursor) : (checkType E t c).dirp.e2d_name = c.dirp.e2d_name := by
  obtain ⟨u, hu⟩ := checkType_dirp (E := E) t c
  rw [hu]

theorem checkEntry_altered (h : c.altered = true) : (checkEntry E N c).altered = true := by
  rcases checkEntry_cases (E := E) (N := N) c with ⟨-, heq⟩ | ⟨-, -, -, heq⟩ | ⟨-, -, heq⟩ | ⟨-, -, heq⟩ |
      ⟨-, t, st, -, heq⟩ <;> rw [heq]
  · exact h
  · rfl
  · rfl
  · exact h
  · unfold checkType
    split
    · rfl
    · exact h

/-- The check for `.` leaves no `..` in the record. -/
theorem checkDot_name (hok : r.Ok E) (hends : r.Ends) (st : Chk) :
    (checkDot E N ⟨[], r, false, st⟩).dirp.e2d_name ≠ dotdotName ∧
      ((checkDot E N ⟨[], r, false, st⟩).altered = false → r.e2d_name ≠ dotdotName) := by
  have hproto : ∀ n, (protoRec E N n dotName).e2d_name ≠ dotdotName := fun n => show dotName ≠ dotdotName by decide
  by_cases hdot : r.e2d_ino ≠ 0 ∧ r.e2d_name = dotName
  · have hne : r.e2d_name ≠ dotdotName := by
      rw [hdot.2]
      decide
    have heq : checkDot E N ⟨[], r, false, st⟩ = _ := if_pos hdot
    rw [heq, checkType_name]
    refine ⟨?_, fun _ => hne⟩
    split
    · exact hne
    · exact hne
  have hunfold : checkDot E N ⟨[], r, false, st⟩ = _ := if_neg hdot
  by_cases hcannot : r.e2d_ino ≠ 0 ∧ r.raw.take 3 ≠ [46, 46, 0]
  · have hne : r.e2d_name ≠ dotdotName := fun hc => hcannot.2 (hends hc)
    rw [hunfold.trans (if_pos hcannot)]
    exact ⟨hne, fun _ => hne⟩
  have hpos := hok.pos
  rw [hunfold.trans ((if_neg hcannot).trans (if_neg (by rw [dirRecLen_one]; show ¬r.e2d_reclen < 12; omega)))]
  split
  · exact ⟨hproto _, fun hc => absurd hc (by simp [Cursor.alter])⟩
  · exact ⟨show [] ≠ dotdotName by decide, fun hc => absurd hc (by simp [Cursor.alter, Cursor.splitOff])⟩

/-- The check for `..` in a record that is not in use. -/
theorem checkDotdot_unused (c : Cursor) (hino : c.dirp.e2d_ino = 0) (h : c.st.i_dotdot N = 0) :
    (checkDotdot E N c).st.i_dotdot N = 0 ∨ (checkDotdot E N c).st.i_dotdot N = -1 ∨
      (checkDotdot E N c).st.i_dotdot N = c.st.i_parent N := by
  have heq : checkDotdot E N c = (missingDotdot E N c).count := if_neg fun hc => hc.1 hino
  rw [heq, (Cursor.count_st _).2.1]
  exact missingDotdot_known c h

/-- **The first record**: it is counted for two and `..` stands right, or `..` is still to come. -/
theorem first_stands (hr : r.Ok E) (hends : r.Ends) (hnum : N ≠ 0) (hk : st.entryno = 0) (hd : st.i_dotdot N = 0) :
    ((onRec (pass2check E N) r st).st.entryno = 1 ∧ (onRec (pass2check E N) r st).st.i_dotdot N = 0 ∧
      ∀ q ∈ (onRec (pass2check E N) r st).out, q.e2d_name ≠ dotdotName) ∨
    ((onRec (pass2check E N) r st).st.entryno = 2 ∧ Stands E (onRec (pass2check E N) r st).out
      ((onRec (pass2check E N) r st).st.i_parent N) ((onRec (pass2check E N) r st).st.i_dotdot N)) := by
  obtain ⟨hcount, hparent, -⟩ := pass2check_first (N := N) hr hnum hk
  have hstart : checked E N r st = checkSecond E N (checkDot E N ⟨[], r, false, st⟩) := by
    unfold checked
    simp only
    rw [if_pos hk]
  obtain ⟨hname, hkept⟩ := checkDot_name (E := E) (N := N) hr hends st
  -- room for `..` has been made, and the record there is not in use
  have hmade : ∀ c : Cursor, c.dirp.e2d_ino = 0 → c.st.i_dotdot = st.i_dotdot → c.st.i_parent = st.i_parent →
      checked E N r st = checkDotdot E N c → Stands E (onRec (pass2check E N) r st).out
        ((onRec (pass2check E N) r st).st.i_parent N) ((onRec (pass2check E N) r st).st.i_dotdot N) := by
    intro c hino hdot hpar heq
    rw [hparent]
    show Stands E _ _ ((checked E N r st).st.i_dotdot N)
    rw [heq, ← hpar]
    rcases checkDotdot_unused (E := E) (N := N) c hino (by rw [hdot, hd]) with h | h | h
    · exact .inl h
    · exact .inr (.inl h)
    · exact .inr (.inr (.inl h))
  rcases checkDot_cases (E := E) (N := N) (c := ⟨[], r, false, st⟩) hr hnum with
    ⟨hdone, hst, hlive, hlen, hneed, -⟩ | ⟨hneed, hbig, -, heq⟩
  · have hsplit : checked E N r st =
        if r.e2d_reclen < r.firstLen + 12 then checkEntry E N (checkDot E N ⟨[], r, false, st⟩)
        else checkDotdot E N ((checkDot E N ⟨[], r, false, st⟩).splitOff r.firstLen) := by
      rw [hstart, checkSecond, hst, if_neg (by rw [hk]; decide), if_pos hk, hlen, hneed, dirRecLen_two]
    by_cases hroom : r.e2d_reclen < r.firstLen + 12
    · rw [if_pos hroom] at hcount hsplit
      refine .inl ⟨hcount, ?_, ?_⟩
      · show (checked E N r st).st.i_dotdot N = 0
        rw [hsplit, checkEntry_dotdot, hst]
        exact hd
      · rw [pass2check_out, hsplit]
        split
        · intro q hq
          rw [Cursor.recs, checkEntry_done, hdone, List.nil_append, List.mem_singleton] at hq
          rw [hq, checkEntry_name]
          exact hname
        next halt =>
          intro q hq
          rw [List.mem_singleton.1 hq]
          refine hkept ?_
          by_contra hc
          exact halt (checkEntry_altered (by simpa using hc))
    · rw [if_neg hroom] at hcount hsplit
      exact .inr ⟨hcount, hmade _ rfl (by rw [← (checkDot_st ⟨[], r, false, st⟩).2]; rfl)
        (by rw [← (checkDot_st ⟨[], r, false, st⟩).1]; rfl) hsplit⟩
  · have hneed : r.firstLen = 12 := hneed
    have hbig : 24 ≤ r.e2d_reclen := hbig
    have hk1 : (checkDot E N ⟨[], r, false, st⟩).st.entryno = 1 := by
      rw [heq]
      exact congrArg (· + 1) hk
    rw [if_neg (by omega)] at hcount
    refine .inr ⟨hcount, hmade (checkDot E N ⟨[], r, false, st⟩) (by rw [heq]; rfl) (checkDot_st _).2
      (checkDot_st _).1 ?_⟩
    rw [hstart, checkSecond, if_neg (by omega), if_neg (by omega)]

/-- **The second record**: `..` stands right afterwards. -/
theorem second_stands (hr : r.Ok E) (hk : st.entryno = 1) (hd : st.i_dotdot N = 0) :
    Stands E (onRec (pass2check E N) r st).out ((onRec (pass2check E N) r st).st.i_parent N)
      ((onRec (pass2check E N) r st).st.i_dotdot N) := by
  have hsplit : checked E N r st = checkDotdot E N ⟨[], r, false, st⟩ := by
    unfold checked
    simp only
    rw [if_neg (by omega), checkSecond, if_neg (show ¬1 < st.entryno by omega),
      if_neg (show ¬st.entryno = 0 by omega)]
  have hparent := (pass2check_second (N := N) hr hk).2.1
  rw [hparent, pass2check_out]
  show Stands E _ _ ((checked E N r st).st.i_dotdot N)
  rw [hsplit]
  by_cases hdd : r.e2d_ino ≠ 0 ∧ r.e2d_name = dotdotName
  · -- the record is `..`, and stays so, though its inode may be taken out
    obtain ⟨c, hc⟩ : ∃ c : Cursor, c = checkType E EXT2_FT_DIR ⟨[], r, false, st.setDotdot N r.e2d_ino⟩ := ⟨_, rfl⟩
    have heq : checkDotdot E N ⟨[], r, false, st⟩ = checkEntry E N c := hc ▸ if_pos hdd
    obtain ⟨u, hu⟩ := checkType_dirp (E := E) EXT2_FT_DIR ⟨[], r, false, st.setDotdot N r.e2d_ino⟩
    rw [← hc] at hu
    have hst : c.st = st.setDotdot N r.e2d_ino := hc ▸ checkType_st ..
    have hdone : c.done = [] := hc ▸ checkType_done ..
    have hearly : c.st.entryno < 2 := by
      rw [hst]
      show st.entryno < 2
      omega
    have hdot : (checkEntry E N c).st.i_dotdot N = r.e2d_ino := by
      rw [checkEntry_dotdot, hst]
      exact Function.update_self ..
    have hname : (checkEntry E N c).dirp.e2d_name = dotdotName := by
      rw [checkEntry_name, hu]
      exact hdd.2
    have hnames : ∀ i, E.Live i → ((checkEntry E N c).dirp.e2d_ino = i ↔ r.e2d_ino = i) := by
      intro i hi
      constructor
      · intro h
        obtain ⟨t, x, hx, hdirp⟩ := checkEntry_dirp (E := E) (N := N) c
        rw [hdirp, hu] at h
        rw [hu] at hx
        exact (hx.resolve_right fun h0 => hi.ne_zero (h ▸ h0)) ▸ h
      · intro h
        have hsame := checkEntry_same (E := E) (N := N) c (.inl hearly) (by rw [hu]; exact h ▸ hi.inRange) (.inl hearly)
        rw [hsame.1, hu]
        exact h
    rw [heq, hdot]
    split
    · rw [Cursor.recs, checkEntry_done, hdone]
      exact .inr (.inr (.inr ⟨[], _, [], rfl, by simp, hname, fun i hi => by rw [hnames i hi, Nat.cast_inj]⟩))
    · exact .inr (.inr (.inr ⟨[], r, [], rfl, by simp, hdd.2, fun i _ => by rw [Nat.cast_inj]⟩))
  · have heq : checkDotdot E N ⟨[], r, false, st⟩ = (missingDotdot E N ⟨[], r, false, st⟩).count := if_neg hdd
    rw [heq, (Cursor.count_st _).2.1]
    rcases missingDotdot_known (E := E) (N := N) ⟨[], r, false, st⟩ hd with h | h | h
    · exact .inl h
    · exact .inr (.inl h)
    · exact .inr (.inr (.inl h))

/-- A parent that is found later. -/
theorem Stands.parent {l : List DirRec} {p p' : ℕ} {dotdot : ℤ} (h : Stands E l p dotdot) (hp : p' = p ∨ p = 0) :
    Stands E l p' dotdot := by
  rcases hp with rfl | rfl
  · exact h
  · rcases h with h | h | h | h
    · exact .inl h
    · exact .inr (.inl h)
    · exact .inl h
    · exact .inr (.inr (.inr h))

/-- Behind the second entry `..` is left alone. -/
theorem Stands.later {l l' : List DirRec} (h : Stands E l' (st.i_parent N) (st.i_dotdot N)) (hl : ∀ r ∈ l, r.Ok E)
    (hk : 2 ≤ st.entryno) : Stands E (l' ++ (sweep (onRec (pass2check E N)) l st).out)
      ((sweep (onRec (pass2check E N)) l st).st.i_parent N) ((sweep (onRec (pass2check E N)) l st).st.i_dotdot N) := by
  have hmoves := sweep_state (f := onRec (pass2check E N)) (Moves.refl N) (fun _ _ _ => Moves.trans)
    (fun r st => pass2check_moves r st) l st
  rw [(later_run hl hk).2.1]
  exact (h.append _).parent ((hmoves.parent N).imp id And.left)

/-- **The scan of a directory** leaves `i_dotdot` so that the second loop knows `..`. -/
theorem scan_stands {l : List DirRec} (hl : ∀ r ∈ l, r.Ok E) (hfirst : ∀ r, l.head? = some r → r.Ends) (hnum : N ≠ 0)
    (hk : st.entryno = 0) (hd : st.i_dotdot N = 0) :
    Stands E (sweep (onRec (pass2check E N)) l st).out ((sweep (onRec (pass2check E N)) l st).st.i_parent N)
      ((sweep (onRec (pass2check E N)) l st).st.i_dotdot N) := by
  cases l with
  | nil => exact .inl hd
  | cons r l =>
    obtain ⟨hr, hl⟩ := List.forall_mem_cons.1 hl
    rw [sweep_go l rfl]
    rcases first_stands (N := N) hr (hfirst r rfl) hnum hk hd with ⟨h1, h2, h3⟩ | ⟨h1, h2⟩
    · refine Stands.behind ?_ h3
      cases l with
      | nil => exact .inl h2
      | cons r' l =>
        obtain ⟨hr', hl⟩ := List.forall_mem_cons.1 hl
        rw [sweep_go l rfl]
        exact (second_stands hr' h1 h2).later hl (pass2check_second (N := N) hr' h1).1.ge
    · exact h2.later hl h1.ge

/-! ### The entry `..` is made, or changed -/

/-- The record has room for `..`, behind the entry that stands in it. -/
def DirRec.HasRoom (r : DirRec) : Prop :=
  dirRecLen 2 + (if r.e2d_ino ≠ 0 then dirRecLen r.namlen else 0) ≤ r.e2d_reclen

instance (r : DirRec) : Decidable r.HasRoom := inferInstanceAs (Decidable (_ ≤ _))

/-- Inodes between which `makeentry` makes an entry: neither is the last one. -/
def EntryOk (E : DirEnv) (D p : ℕ) : Prop :=
  ¬((D < FIRSTINO ∧ D ≠ ROOTINO) ∨ E.v.maxino ≤ D ∨ (p < FIRSTINO ∧ p < ROOTINO) ∨ E.v.maxino ≤ p)

instance (E : DirEnv) (D p : ℕ) : Decidable (EntryOk E D p) := inferInstanceAs (Decidable (¬_))

/-- `makeentry` can make `..` in the directory, which does not grow. -/
def CanEnter (E : DirEnv) (s : Pass2State) (D p : ℕ) : Prop := EntryOk E D p ∧ ∃ r ∈ s.recs D, r.HasRoom

instance (E : DirEnv) (s : Pass2State) (D p : ℕ) : Decidable (CanEnter E s D p) :=
  inferInstanceAs (Decidable (_ ∧ _))

/-- A record with room gets the entry, and the search is over. -/
theorem mkentry_room (p : ℕ) (hi : i ≠ 0) (hroom : r.HasRoom) (u : Unit) :
    (onRec (mkentry E p dotdotName) r u).stop = true ∧
      tally i (onRec (mkentry E p dotdotName) r u).out = tally i [r] + if p = i then 1 else 0 := by
  have hge := dirRecLen_ge r.namlen
  unfold DirRec.HasRoom at hroom
  unfold onRec Reply.step mkentry
  rw [show dotdotName.length = 2 from rfl]
  by_cases hlive : r.e2d_ino ≠ 0
  · rw [if_pos hlive] at hroom
    simp only [if_pos hlive]
    rw [if_neg (show ¬(r.e2d_reclen : ℤ) - dirRecLen r.namlen < dirRecLen 2 by omega)]
    simp only [if_true]
    rw [if_neg (show ¬dirRecLen r.namlen = 0 by omega), tally_cons, tally_single, tally_single, tally_single]
    exact ⟨trivial, rfl⟩
  · rw [if_neg hlive] at hroom
    simp only [if_neg hlive]
    rw [if_neg (show ¬(r.e2d_reclen : ℤ) - (0 : ℕ) < dirRecLen 2 by push_cast; omega)]
    simp only [if_true]
    rw [tally_single, tally_single, if_neg (show r.e2d_ino ≠ i from fun hc => hi (hc ▸ not_not.1 hlive)), Nat.zero_add]
    exact ⟨trivial, rfl⟩

theorem mkentry_full (p : ℕ) (hroom : ¬r.HasRoom) (u : Unit) :
    onRec (mkentry E p dotdotName) r u = ⟨[r], false, u⟩ := by
  unfold DirRec.HasRoom at hroom
  unfold onRec Reply.step mkentry
  rw [show dotdotName.length = 2 from rfl]
  by_cases hlive : r.e2d_ino ≠ 0
  · rw [if_pos hlive] at hroom
    simp only [if_pos hlive]
    rw [if_pos (show (r.e2d_reclen : ℤ) - dirRecLen r.namlen < dirRecLen 2 by omega)]
    rfl
  · rw [if_neg hlive] at hroom
    simp only [if_neg hlive]
    rw [if_pos (show (r.e2d_reclen : ℤ) - (0 : ℕ) < dirRecLen 2 by push_cast; omega)]
    rfl

theorem mkentry_keeps (p : ℕ) (r : DirRec) (u : Unit) (h : (onRec (mkentry E p dotdotName) r u).stop = false) :
    (onRec (mkentry E p dotdotName) r u).out = [r] ∧ (onRec (mkentry E p dotdotName) r u).st = u := by
  by_cases hroom : r.HasRoom
  · rw [(mkentry_room (E := E) p one_ne_zero hroom u).1] at h
    cases h
  · rw [mkentry_full p hroom]
    exact ⟨rfl, rfl⟩

theorem mkentry_stop (p : ℕ) (r : DirRec) (u : Unit) :
    (onRec (mkentry E p dotdotName) r u).stop = true ↔ r.HasRoom := by
  by_cases hroom : r.HasRoom
  · simp [hroom, (mkentry_room (E := E) p one_ne_zero hroom u).1]
  · simp [hroom, mkentry_full (E := E) p hroom u]

/-- **The search for room**: the records have the entry afterwards, or none has room. -/
theorem mkentry_sweep (p : ℕ) (hi : i ≠ 0) (l : List DirRec) :
    ((∃ r ∈ l, r.HasRoom) ∧ (sweep (onRec (mkentry E p dotdotName)) l ()).stop = true ∧
      tally i (sweep (onRec (mkentry E p dotdotName)) l ()).out = tally i l + if p = i then 1 else 0) ∨
    ((¬∃ r ∈ l, r.HasRoom) ∧ (sweep (onRec (mkentry E p dotdotName)) l ()).stop = false ∧
      (sweep (onRec (mkentry E p dotdotName)) l ()).out = l) := by
  have hkeep := fun (r : DirRec) (u : Unit) => mkentry_keeps (E := E) p r u
  rcases sweep_find (onRec (mkentry E p dotdotName)) l () with hnone | ⟨pre, r, post, rfl, hpre, hr⟩
  · right
    have hskip := sweep_skip hkeep hnone []
    rw [List.append_nil] at hskip
    refine ⟨?_, hskip.2, hskip.1.trans (List.append_nil l)⟩
    rintro ⟨r, hr, hroom⟩
    rw [← mkentry_stop (E := E) p r (), hnone r hr] at hroom
    cases hroom
  · left
    have hroom := (mkentry_stop p r ()).1 hr
    obtain ⟨hout, hstop⟩ := sweep_first hkeep hpre hr post
    refine ⟨⟨r, by simp, hroom⟩, hstop, ?_⟩
    have hnew := (mkentry_room (E := E) p hi hroom ()).2
    rw [hout, tally_append, tally_append, hnew, tally_append, tally_cons i r post]
    omega

/-- **The first record with the name** gets the inode. -/
theorem chgino_sweep (p : ℕ) {pre : List DirRec} (hpre : ∀ q ∈ pre, q.e2d_name ≠ dotdotName)
    (hname : r.e2d_name = dotdotName) (post : List DirRec) :
    tally i (sweep (onRec (chgino E p dotdotName)) (pre ++ r :: post) ()).out + tally i [r] =
      tally i (pre ++ r :: post) + if p = i then 1 else 0 := by
  have hother : ∀ (q : DirRec) (u : Unit), q.e2d_name ≠ dotdotName →
      onRec (chgino E p dotdotName) q u = ⟨[q], false, u⟩ := by
    intro q u hq
    unfold onRec Reply.step chgino
    rw [if_pos hq]
    rfl
  have hnamed : ∀ (q : DirRec) (u : Unit), q.e2d_name = dotdotName → onRec (chgino E p dotdotName) q u =
      ⟨[{ q with e2d_ino := p, e2d_type := if E.ftype then E.inoType p else 0 }], true, u⟩ := by
    intro q u hq
    unfold onRec Reply.step chgino
    rw [if_neg (not_not.2 hq)]
    rfl
  have hkeep : ∀ (q : DirRec) (u : Unit), (onRec (chgino E p dotdotName) q u).stop = false →
      (onRec (chgino E p dotdotName) q u).out = [q] ∧ (onRec (chgino E p dotdotName) q u).st = u := by
    intro q u h
    by_cases hq : q.e2d_name = dotdotName
    · rw [hnamed q u hq] at h
      cases h
    · rw [hother q u hq]
      exact ⟨rfl, rfl⟩
  obtain ⟨hout, -⟩ := sweep_first hkeep (fun q hq => by rw [hother q () (hpre q hq)])
    (by rw [hnamed r () hname]) post
  rw [hout, hnamed r () hname, tally_append, tally_append, tally_append, tally_cons i r post, tally_single]
  show tally i pre + ((if p = i then 1 else 0) + tally i post) + tally i [r] = _
  omega

/-- **A directory whose records are searched for one to change**, and which `ginode` finds. -/
theorem Ready.edit (h : Ready E t D) (hnoted : Noted E t D) (hplace : E.ginode D = E.slot D)
    (hmod : t.i_isize D % E.v.bsize = 0) (f : DirRec → Unit → Reply Unit) :
    (editDir E f D t).1 = (sweep (onRec f) (t.recs D) ()).stop ∧
      (editDir E f D t).2.recs D = (sweep (onRec f) (t.recs D) ()).out ∧
      (editDir E f D t).2.lncntp = t.lncntp := by
  have hall : ((t.i_isize D : ℕ) : ℤ) = (t.blks D).length * E.v.bsize := by
    rw [h.count, ← Nat.cast_mul]
    exact congrArg Nat.cast (roundup_of_mod hmod).symm
  obtain ⟨h1, h2, -⟩ := scanBlocks_sweep (f := f) h.inRange h.blocks_ok h.nodup hall ()
  rw [hnoted.editDir hplace]
  exact ⟨h1, h2, rfl⟩

/-- **`makeentry`** of `..`: the directory has the entry afterwards if there was room, and nothing else
changes. -/
theorem makeentry_tally (h : Ready E t D) (hnoted : Noted E t D) (hplace : E.ginode D = E.slot D)
    (hmod : t.i_isize D % E.v.bsize = 0) (newblk p : ℕ) (hi : i ≠ 0) :
    (makeentry E newblk D p dotdotName t).2.lncntp = t.lncntp ∧
      tally i ((makeentry E newblk D p dotdotName t).2.recs D) =
        tally i (t.recs D) + if CanEnter E t D p ∧ p = i then 1 else 0 := by
  rw [hnoted.makeentry hplace hmod]
  by_cases hguard : EntryOk E D p
  · rw [if_neg hguard]
    have hcan : CanEnter E t D p ↔ ∃ r ∈ t.recs D, r.HasRoom := and_iff_right hguard
    obtain ⟨-, hout, hcount⟩ := h.edit hnoted hplace hmod (mkentry E p dotdotName)
    rw [hout]
    refine ⟨hcount, ?_⟩
    rcases mkentry_sweep (E := E) p hi (t.recs D) with ⟨hroom, -, htally⟩ | ⟨hroom, -, hsame⟩
    · rw [htally]
      simp only [hcan.2 hroom, true_and]
    · rw [hsame, if_neg fun hc => hroom (hcan.1 hc.1), Nat.add_zero]
  · rw [if_pos (not_not.1 hguard), if_neg fun hc => hguard hc.1.1]
    exact ⟨rfl, rfl⟩

/-! ### The second loop -/

/-- `..` of the directory is missing, its parent is known, and `makeentry` cannot make the entry. -/
def Unmade (E : DirEnv) (s : Pass2State) (D : ℕ) : Prop :=
  s.i_parent D ≠ 0 ∧ s.i_isize D ≠ 0 ∧ s.i_dotdot D = 0 ∧ ¬CanEnter E s D (s.i_parent D)

instance (E : DirEnv) (s : Pass2State) (D : ℕ) : Decidable (Unmade E s D) := inferInstanceAs (Decidable (_ ∧ _))

/-- How many of the directories are counted for a `..` that is not made. -/
def unmade (E : DirEnv) (s : Pass2State) (ds : List ℕ) (i : ℕ) : ℕ :=
  (ds.map fun d => if Unmade E s d ∧ s.i_parent d = i then 1 else 0).sum

/-- Two counts are moved. -/
theorem update_rest (f : ℕ → ℤ) (j : ℕ) (x : ℤ) (i : ℕ) :
    ((Function.update f j (i16 (f j + x)) i : ℤ) : ZMod (2 ^ 16)) =
      (f i : ZMod (2 ^ 16)) + if j = i then (x : ZMod (2 ^ 16)) else 0 := by
  rcases eq_or_ne j i with rfl | hne
  · rw [if_pos rfl, Function.update_self, i16_cast]
    push_cast
    ring
  · rw [if_neg hne, Function.update_of_ne hne.symm, add_zero]

/-- **`..` is made, or only counted**, where it is missing. -/
theorem fixDotdot_missing (h : Ready E t D) (hnoted : Noted E t D) (hmod : t.i_isize D % E.v.bsize = 0)
    (hplace : E.ginode D = E.slot D) (hparent : t.i_parent D ≠ 0) (hsize : t.i_isize D ≠ 0)
    (hmissing : t.i_dotdot D = 0) (newblk : ℕ) (hi : i ≠ 0) :
    (fixDotdot E D newblk t).rest i + (tally i ((fixDotdot E D newblk t).recs D) : ℕ) +
        (if Unmade E t D ∧ t.i_parent D = i then 1 else 0) = t.rest i + (tally i (t.recs D) : ℕ) := by
  obtain ⟨u, hu⟩ : ∃ u : Pass2State, u = { t with
      i_dotdot := Function.update t.i_dotdot D (t.i_parent D : ℤ) } := ⟨_, rfl⟩
  have hready : Ready E u D := by
    rw [hu]
    exact ⟨h.valid, h.parent_le, h.count, h.inRange, h.nodup, h.blocks_ok⟩
  obtain ⟨hcount, htally⟩ := makeentry_tally hready (hu ▸ hnoted.congr rfl rfl rfl) hplace (hu ▸ hmod) newblk
    (t.i_parent D) hi
  have hucount : u.lncntp = t.lncntp := by rw [hu]
  have hurecs : u.recs D = t.recs D := by
    rw [hu]
    rfl
  have hucan : CanEnter E u D (t.i_parent D) ↔ CanEnter E t D (t.i_parent D) := by
    unfold CanEnter
    rw [hurecs]
  rw [hucount] at hcount
  rw [hurecs] at htally
  simp only [hucan] at htally
  obtain ⟨w, hw⟩ : ∃ w, w = (makeentry E newblk D (t.i_parent D) dotdotName u).2 := ⟨_, rfl⟩
  rw [← hw] at hcount htally
  have heq : fixDotdot E D newblk t =
      { w with lncntp := Function.update w.lncntp (t.i_parent D) (i16 (w.lncntp (t.i_parent D) + -1)) } := by
    unfold fixDotdot
    rw [if_neg (not_or.2 ⟨hparent, hsize⟩), if_neg (by omega), if_pos hmissing, hw, hu]
    rfl
  have hrest : (fixDotdot E D newblk t).rest i = t.rest i + if t.i_parent D = i then -1 else 0 := by
    rw [heq]
    unfold Pass2State.rest
    rw [update_rest, hcount]
    push_cast
    rfl
  have hrecs : (fixDotdot E D newblk t).recs D = w.recs D := by
    rw [heq]
    rfl
  rw [hrest, hrecs, htally]
  have hunmade : Unmade E t D ↔ ¬CanEnter E t D (t.i_parent D) :=
    ⟨fun hc => hc.2.2.2, fun hc => ⟨hparent, hsize, hmissing, hc⟩⟩
  simp only [hunmade]
  by_cases hpi : t.i_parent D = i
  · by_cases hcan : CanEnter E t D (t.i_parent D)
    · simp only [hpi, if_true, and_true] at hcan ⊢
      rw [if_pos hcan, if_neg (not_not.2 hcan)]
      push_cast
      ring
    · simp only [hpi, if_true, and_true] at hcan ⊢
      rw [if_neg hcan, if_pos hcan]
      push_cast
      ring
  · simp [hpi]

/-- **The first `..` gets the parent**, where it names another inode. -/
theorem fixDotdot_moved (h : Ready E t D) (hnoted : Noted E t D) (hmod : t.i_isize D % E.v.bsize = 0)
    (hplace : E.ginode D = E.slot D) (hworks : ¬(t.i_parent D = 0 ∨ t.i_isize D = 0))
    (hknown : ¬(t.i_dotdot D = t.i_parent D ∨ t.i_dotdot D = -1)) (hmissing : t.i_dotdot D ≠ 0)
    (hstands : Stands E (t.recs D) (t.i_parent D) (t.i_dotdot D)) (newblk : ℕ) (hi : E.Live i) :
    (fixDotdot E D newblk t).rest i + (tally i ((fixDotdot E D newblk t).recs D) : ℕ) =
      t.rest i + (tally i (t.recs D) : ℕ) := by
  obtain ⟨pre, r, post, hrecs, hpre, hname, hino⟩ :=
    ((hstands.resolve_left hmissing).resolve_left fun hc => hknown (.inr hc)).resolve_left fun hc => hknown (.inl hc)
  obtain ⟨more, hmore⟩ : ∃ more, more = Function.update t.lncntp (t.i_dotdot D).toNat
      (i16 (t.lncntp (t.i_dotdot D).toNat + 1)) := ⟨_, rfl⟩
  obtain ⟨v, hv⟩ : ∃ v : Pass2State, v = { t with
      i_dotdot := Function.update t.i_dotdot D (t.i_parent D : ℤ)
      lncntp := Function.update more (t.i_parent D) (i16 (more (t.i_parent D) - 1)) } := ⟨_, rfl⟩
  have hready : Ready E v D := by
    rw [hv]
    exact ⟨h.valid, h.parent_le, h.count, h.inRange, h.nodup, h.blocks_ok⟩
  have hvrecs : v.recs D = pre ++ r :: post := by
    rw [← hrecs, hv]
    rfl
  have hnow : Noted E v D := hv ▸ hnoted.congr rfl rfl rfl
  obtain ⟨-, hedited, hkept⟩ := hready.edit hnow hplace (hv ▸ hmod) (chgino E (t.i_parent D) dotdotName)
  have heq : fixDotdot E D newblk t = (editDir E (chgino E (t.i_parent D) dotdotName) D v).2 := by
    unfold fixDotdot
    rw [if_neg hworks, if_neg hknown, if_neg hmissing, hv, hmore]
    rfl
  have hcount : (editDir E (chgino E (t.i_parent D) dotdotName) D v).2.rest i = v.rest i := by
    unfold Pass2State.rest
    rw [hkept]
  have htally := chgino_sweep (E := E) (i := i) (t.i_parent D) hpre hname post
  rw [heq, hcount, hedited, hvrecs, hrecs]
  have hrest : v.rest i = t.rest i + (if r.e2d_ino = i then 1 else 0) + (if t.i_parent D = i then -1 else 0) := by
    rw [hv]
    unfold Pass2State.rest
    show ((Function.update more (t.i_parent D) (i16 (more (t.i_parent D) - 1)) i : ℤ) : ZMod (2 ^ 16)) = _
    rw [sub_eq_add_neg, update_rest, hmore, update_rest]
    have hto : (t.i_dotdot D).toNat = i ↔ r.e2d_ino = i := by
      rw [hino i hi]
      have hne := hi.ne_zero
      omega
    simp only [hto]
    push_cast
    rfl
  rw [tally_single] at htally
  rw [hrest]
  have hcast := congrArg (Nat.cast (R := ZMod (2 ^ 16))) htally
  push_cast at hcast
  by_cases hpi : t.i_parent D = i
  · rw [if_pos hpi] at hcast ⊢
    linear_combination hcast
  · rw [if_neg hpi] at hcast ⊢
    linear_combination hcast

/-- **A round of the second loop**: the count moves with `..`, and one is lost where `..` is not made. -/
theorem fixDotdot_balance (h : Ready E t D) (hnoted : Noted E t D) (hmod : t.i_isize D % E.v.bsize = 0)
    (hplace : Unsettled t D → E.ginode D = E.slot D)
    (hstands : Stands E (t.recs D) (t.i_parent D) (t.i_dotdot D)) (newblk : ℕ) (hi : E.Live i) :
    (fixDotdot E D newblk t).rest i + (tally i ((fixDotdot E D newblk t).recs D) : ℕ) +
        (if Unmade E t D ∧ t.i_parent D = i then 1 else 0) = t.rest i + (tally i (t.recs D) : ℕ) := by
  have hzero : ∀ u : Pass2State, u = t → ¬Unmade E t D → u.rest i + (tally i (u.recs D) : ℕ) +
      (if Unmade E t D ∧ t.i_parent D = i then 1 else 0) = t.rest i + (tally i (t.recs D) : ℕ) := by
    rintro u rfl hno
    rw [if_neg fun hc => hno hc.1, add_zero]
  by_cases hskip : t.i_parent D = 0 ∨ t.i_isize D = 0
  · exact hzero _ (if_pos hskip) fun hc => hskip.elim hc.1 hc.2.1
  have hunfold : fixDotdot E D newblk t = _ := if_neg hskip
  by_cases hknown : t.i_dotdot D = t.i_parent D ∨ t.i_dotdot D = -1
  · refine hzero _ (hunfold.trans (if_pos hknown)) fun hc => ?_
    have hdot := hc.2.2.1
    rcases hknown with hk | hk <;> omega
  replace hplace := hplace (unsettled_of_works hskip hknown)
  by_cases hmissing : t.i_dotdot D = 0
  · obtain ⟨hparent, hsize⟩ := not_or.1 hskip
    exact fixDotdot_missing h hnoted hmod hplace hparent hsize hmissing newblk hi.ne_zero
  · rw [if_neg fun hc => hmissing hc.1.2.2.1, add_zero]
    exact fixDotdot_moved h hnoted hmod hplace hskip hknown hmissing hstands newblk hi

variable {ds : List ℕ}

/-- What a round for another directory leaves. -/
theorem Edited.elsewhere {d : ℕ} (h : Edited E d s t) (hne : d ≠ D) (halone : ∀ b ∈ s.blks d, b ∉ s.blks D) :
    t.recs D = s.recs D ∧ t.i_dotdot D = s.i_dotdot D ∧ t.i_parent D = s.i_parent D ∧
      (Unmade E t D ↔ Unmade E s D) := by
  have hu := h.untouched hne halone
  refine ⟨hu.recs, hu.dotdot, congrFun h.i_parent D, ?_⟩
  unfold Unmade CanEnter
  rw [hu.recs, hu.dotdot, h.i_parent, hu.i_isize]

/-- **The second loop.** -/
theorem fixDotdots_balance (h : Scannable E t ds) (ht : Tidy E t) (hmod : ∀ d ∈ ds, t.i_isize d % E.v.bsize = 0)
    (hplace : ∀ d ∈ ds, Unsettled t d → E.ginode d = E.slot d)
    (hstands : ∀ d ∈ ds, Stands E (t.recs d) (t.i_parent d) (t.i_dotdot d)) (alloc : ℕ → ℕ) (hi : E.Live i) :
    (fixDotdots E alloc ds t).rest i + ((fixDotdots E alloc ds t).names ds i : ℕ) + (unmade E t ds i : ℕ) =
      t.rest i + (t.names ds i : ℕ) := by
  induction ds generalizing t with
  | nil => simp [fixDotdots, Pass2State.names, unmade]
  | cons d ds ih =>
    obtain ⟨hnot, hnd⟩ := List.nodup_cons.1 h.nodup
    obtain ⟨hd, hmods⟩ := List.forall_mem_cons.1 hmod
    obtain ⟨hp, hplaces⟩ := List.forall_mem_cons.1 hplace
    obtain ⟨hsd, hstands⟩ := List.forall_mem_cons.1 hstands
    have hready := h.ready d List.mem_cons_self
    have hne : ∀ D ∈ ds, d ≠ D := fun D hD hc => hnot (hc ▸ hD)
    obtain ⟨u, hu⟩ : ∃ u, u = fixDotdot E d (alloc d) t := ⟨_, rfl⟩
    have hmem := h.mem d List.mem_cons_self
    have he : Edited E d t u := hu ▸ fixDotdot_edited ht hmem hd hp (alloc d)
    have htidy := he.tidy ht
    have hmodu : ∀ D ∈ ds, u.i_isize D % E.v.bsize = 0 := fun D hD => by rw [he.i_isize]; exact hmods D hD
    have hplaceu : ∀ D ∈ ds, Unsettled u D → E.ginode D = E.slot D := fun D hD hw =>
      hplaces D hD (fixDotdot_unsettled (hu ▸ hw))
    have halone : ∀ D ∈ ds, ∀ b ∈ t.blks d, b ∉ t.blks D := fun D hD =>
      h.alone d List.mem_cons_self D (List.mem_cons_of_mem d hD) (hne D hD)
    have hother : ∀ D ∈ ds, u.recs D = t.recs D ∧ u.i_dotdot D = t.i_dotdot D ∧ u.i_parent D = t.i_parent D ∧
        (Unmade E u D ↔ Unmade E t D) := fun D hD => he.elsewhere (hne D hD) (halone D hD)
    have hscan : Scannable E u ds := by
      refine ⟨hnd, fun D hD => ?_, fun D hD => ?_, fun x hx D hD => ?_,
        fun D hD => h.mem D (List.mem_cons_of_mem d hD)⟩
      · exact (h.ready D (List.mem_cons_of_mem d hD)).untouched (he.untouched (hne D hD) (halone D hD))
          (htidy.parent_le D)
      · exact (h.fits D (List.mem_cons_of_mem d hD)).of_isize (by rw [he.i_isize])
      · rw [he.blks]
        exact h.alone x (List.mem_cons_of_mem d hx) D (List.mem_cons_of_mem d hD)
    have hrest := ih hscan htidy hmodu hplaceu fun D hD => by
      obtain ⟨h1, h2, h3, -⟩ := hother D hD
      rw [h1, h2, h3]
      exact hstands D hD
    have hround := fixDotdot_balance hready (ht.noted d hmem) hd hp hsd (alloc d) hi
    rw [← hu] at hround
    -- the directory itself is not touched any more
    have hlast : Untouched d u (fixDotdots E alloc ds u) := by
      refine (fixDotdots_untouched alloc (fun x hx => ?_) hmodu hplaceu htidy).1
      exact (h.other (List.mem_cons_of_mem d hx) List.mem_cons_self (hne x hx).symm).congr he.blks
    have hrun : fixDotdots E alloc (d :: ds) t = fixDotdots E alloc ds u := by
      rw [hu]
      rfl
    have hnames : u.names ds i = t.names ds i :=
      congrArg List.sum (List.map_congr_left fun D hD => by rw [(hother D hD).1])
    have hunmade : unmade E u ds i = unmade E t ds i := by
      refine congrArg List.sum (List.map_congr_left fun D hD => ?_)
      obtain ⟨-, -, hparent, hsame⟩ := hother D hD
      simp only [hparent, hsame]
    have hfirst : (fixDotdots E alloc ds u).names (d :: ds) i =
        tally i (u.recs d) + (fixDotdots E alloc ds u).names ds i := by
      unfold Pass2State.names
      rw [List.map_cons, List.sum_cons, hlast.recs]
    have hsecond : t.names (d :: ds) i = tally i (t.recs d) + t.names ds i := rfl
    have hthird : unmade E t (d :: ds) i =
        (if Unmade E t d ∧ t.i_parent d = i then 1 else 0) + unmade E t ds i := rfl
    rw [hnames, hunmade] at hrest
    rw [hrun, hfirst, hsecond, hthird]
    push_cast
    linear_combination hrest + hround

/-- `..` of every directory stands right after the first loop. -/
theorem scanDirs_stands (h : Scannable E s ds) (ht : Tidy E s)
    (hplace : ∀ d ∈ ds, Resized E s d → E.ginode d = E.slot d) (hdot : ∀ d ∈ ds, s.i_dotdot d = 0)
    (hends : ∀ d ∈ ds, ∀ r, (s.recs d).head? = some r → r.Ends) :
    ∀ d ∈ ds, Stands E ((scanDirs E ds s).recs d) ((scanDirs E ds s).i_parent d) ((scanDirs E ds s).i_dotdot d) := by
  induction ds generalizing s with
  | nil => exact fun d hd => absurd hd List.not_mem_nil
  | cons d ds ih =>
    obtain ⟨hd, hdot⟩ := List.forall_mem_cons.1 hdot
    obtain ⟨hp, hplaces⟩ := List.forall_mem_cons.1 hplace
    obtain ⟨hed, hends⟩ := List.forall_mem_cons.1 hends
    have hready := h.ready d List.mem_cons_self
    have htidy : Tidy E (checkDir E d s) := checkDir_tidy ht (h.mem d List.mem_cons_self) hready.valid.2 hp
    obtain ⟨htail, hu⟩ := h.tail htidy.parent_le
    have hlast := h.head_untouched htidy hplaces
    refine List.forall_mem_cons.2 ⟨?_, ih htail htidy (fun x hx hr => hplaces x hx (checkDir_resized hr)) (fun D hD => by rw [(hu D hD).dotdot, hdot D hD])
      fun D hD => by rw [(hu D hD).recs]; exact hends D hD⟩
    obtain ⟨hrecs, -, hdd, hpar⟩ := hready.scan_recs (h.fits d List.mem_cons_self)
    have hall : ∀ r ∈ s.recs d, r.Ok E := by
      intro r hr
      obtain ⟨b, hb, hr⟩ := List.mem_flatMap.1 hr
      exact (hready.blocks_ok b hb).recs_ok r hr
    have hnow : Stands E ((checkDir E d s).recs d) ((checkDir E d s).i_parent d) ((checkDir E d s).i_dotdot d) := by
      rw [hrecs, hdd, hpar]
      exact scan_stands hall hed hready.valid.1 rfl hd
    show Stands E ((scanDirs E ds (checkDir E d s)).recs d) _ ((scanDirs E ds (checkDir E d s)).i_dotdot d)
    rw [hlast.recs, hlast.dotdot]
    refine hnow.parent ?_
    by_cases hp : (checkDir E d s).i_parent d = 0
    · exact .inr hp
    · exact .inl (hlast.parent hp)

/-! ### Pass 2 -/

/-- What pass 1 leaves of a volume whose directories are all well-formed chains of records, those that are
changed through `ginode` found by it. -/
structure Orderly (E : DirEnv) (s : Pass2State) : Prop where
  entered : Entered E s
  accepted : ∀ d ∈ E.inpsort, Accepted E s d
  finds : GinodeFinds E s
  fits : ∀ d ∈ E.inpsort, Fits E s d
  dotdot : ∀ d ∈ E.inpsort, s.i_dotdot d = 0
  ends : ∀ d ∈ E.inpsort, ∀ r, (s.recs d).head? = some r → r.Ends

theorem Orderly.scannable (h : Orderly E s) : Scannable E s E.inpsort where
  nodup := h.entered.nodup
  ready d hd := (h.accepted d hd).ready h.entered (.refl d s) h.entered.toTidy
  fits := h.fits
  alone d hd D hD hne := (h.accepted D hD).alone d hd hne
  mem _ hd := hd

/-- **The counts after pass 2**: of an inode in use, what pass 2 has taken off its count are the entries
that name it afterwards, and those `..` that could not be made. -/
theorem pass2_balance (h : Orderly E s) (alloc : ℕ → ℕ) (hi : E.Live i) :
    (pass2 E alloc s).rest i + ((pass2 E alloc s).names E.inpsort i : ℕ) +
      (unmade E (scanDirs E E.inpsort s) E.inpsort i : ℕ) = s.rest i := by
  have hscan := h.scannable
  have htidy := h.entered.toTidy
  obtain ⟨h1, h2, h3⟩ := scanDirs_balance hscan htidy h.finds.sizes
  unfold pass2
  rw [fixDotdots_balance h1 h2 (fun d hd => scanDirs_mod (.inl hd)) h.finds.dotdots
    (scanDirs_stands hscan htidy h.finds.sizes h.dotdot h.ends) alloc hi, h3 i hi]

/-! ### The type of the counts -/

/-- All counts are of the type `int16_t`. -/
def Ranged (f : ℕ → ℤ) : Prop := ∀ i, -2 ^ 15 ≤ f i ∧ f i < 2 ^ 15

theorem i16_range (x : ℤ) : -2 ^ 15 ≤ i16 x ∧ i16 x < 2 ^ 15 := by
  have h1 := Int.le_bmod (x := x) (m := 2 ^ 16) (by decide)
  have h2 := Int.bmod_lt (x := x) (m := 2 ^ 16) (by decide)
  unfold i16
  norm_num at h1 h2 ⊢
  omega

theorem Ranged.update {f : ℕ → ℤ} (h : Ranged f) (j : ℕ) (x : ℤ) : Ranged (Function.update f j (i16 x)) := by
  intro k
  rcases eq_or_ne k j with rfl | hne
  · rw [Function.update_self]
    exact i16_range x
  · rw [Function.update_of_ne hne]
    exact h k

theorem Ranged.checkType (h : Ranged c.st.lncntp) (x : ℕ) : Ranged (checkType E x c).st.lncntp := by
  rwa [checkType_st]

theorem Ranged.splitOff (h : Ranged c.st.lncntp) (n : ℕ) : Ranged (c.splitOff n).st.lncntp :=
  h.update _ _

theorem Ranged.checkDot (h : Ranged c.st.lncntp) : Ranged (checkDot E N c).st.lncntp := by
  unfold Fsck.checkDot
  simp only
  split
  · refine Ranged.checkType ?_ _
    split
    · exact h
    · exact h
  · split
    · exact h
    · split
      · exact h
      · split
        · exact h
        · exact Ranged.splitOff (c := c.alter (protoRec E N c.dirp.e2d_reclen dotName)) h _

theorem Ranged.checkEntry (h : Ranged c.st.lncntp) : Ranged (checkEntry E N c).st.lncntp := by
  rcases checkEntry_cases (E := E) (N := N) c with ⟨-, heq⟩ | ⟨-, -, -, heq⟩ | ⟨-, -, heq⟩ | ⟨-, -, heq⟩ |
      ⟨-, t, st, hst, heq⟩ <;> rw [heq]
  · exact h
  · exact h
  · exact h
  · exact h
  · have hsame : st.lncntp = c.st.lncntp := by
      rcases hst with rfl | ⟨-, -, -, rfl⟩ <;> rfl
    refine Ranged.checkType (c := { c with st := st.uncount c.dirp.e2d_ino }) ?_ t
    exact (hsame ▸ h : Ranged st.lncntp).update _ _

theorem Ranged.checkDotdot (h : Ranged c.st.lncntp) : Ranged (checkDotdot E N c).st.lncntp := by
  unfold Fsck.checkDotdot
  simp only
  split
  · exact Ranged.checkEntry (Ranged.checkType (c := { c with st := c.st.setDotdot N c.dirp.e2d_ino }) h _)
  · have hmissing : Ranged (missingDotdot E N c).st.lncntp := by
      unfold missingDotdot
      simp only
      split
      · exact h
      · split
        · exact h
        · split <;> exact h
    unfold Cursor.count
    simp only
    split
    · exact hmissing.update _ _
    · exact hmissing

theorem Ranged.checkSecond (h : Ranged c.st.lncntp) : Ranged (checkSecond E N c).st.lncntp := by
  unfold Fsck.checkSecond
  split
  · exact h.checkEntry
  · split
    · split
      · exact h.checkEntry
      · exact (h.splitOff _).checkDotdot
    · exact h.checkDotdot

theorem Ranged.pass2check (h : Ranged st.lncntp) (r : DirRec) : Ranged (pass2check E N r st).st.lncntp := by
  show Ranged (checked E N r st).st.lncntp
  unfold checked
  simp only
  refine Ranged.checkSecond ?_
  split
  · exact Ranged.checkDot (c := ⟨[], r, false, st⟩) h
  · exact h

theorem Ranged.checkDir (h : Ranged s.lncntp) (D : ℕ) : Ranged (checkDir E D s).lncntp := by
  by_cases hsize : s.i_isize D = 0
  · have heq : Fsck.checkDir E D s = s := if_pos hsize
    rwa [heq]
  · rw [checkDir_eq hsize]
    exact scanBlocks_state (R := fun st st' : Chk => Ranged st.lncntp → Ranged st'.lncntp) (fun _ hr => hr)
      (fun _ _ _ h1 h2 hr => h2 (h1 hr)) (fun r _ hr => hr.pass2check r) (s.blks D) _ s.blocks s.chk h

theorem editDir_lncntp (f : DirRec → Unit → Reply Unit) (d : ℕ) (s : Pass2State) :
    (editDir E f d s).2.lncntp = s.lncntp := by
  obtain ⟨blocks, h⟩ := editDir_frame (E := E) f d s
  rw [h]

theorem Ranged.fixDotdot (h : Ranged s.lncntp) (D newblk : ℕ) : Ranged (fixDotdot E D newblk s).lncntp := by
  unfold Fsck.fixDotdot
  simp only
  split
  · exact h
  · split
    · exact h
    · split
      · refine Ranged.update ?_ _ _
        obtain ⟨blocks, itab, hentry⟩ := makeentry_frame (E := E) newblk D (s.i_parent D) dotdotName
          { s with i_dotdot := Function.update s.i_dotdot D (s.i_parent D : ℤ) }
        rw [hentry]
        exact h
      · unfold changeino
        have hedit := editDir_lncntp (E := E) (chgino E (s.i_parent D) dotdotName) D
        rw [hedit]
        exact (h.update _ _).update _ _

/-- **The counts** are of the type `int16_t` after pass 2 if they were before. -/
theorem Ranged.pass2 (h : Ranged s.lncntp) (alloc : ℕ → ℕ) : Ranged (pass2 E alloc s).lncntp := by
  have hscan : ∀ ds (s : Pass2State), Ranged s.lncntp → Ranged (scanDirs E ds s).lncntp := by
    intro ds
    induction ds with
    | nil => exact fun _ hs => hs
    | cons d ds ih => exact fun s hs => ih _ (hs.checkDir d)
  have hfix : ∀ ds (s : Pass2State), Ranged s.lncntp → Ranged (fixDotdots E alloc ds s).lncntp := by
    intro ds
    induction ds with
    | nil => exact fun _ hs => hs
    | cons d ds ih => exact fun s hs => ih _ (hs.fixDotdot d (alloc d))
  exact hfix _ _ (hscan _ _ h)

end Ext2fs.Fsck
