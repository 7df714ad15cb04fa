import Ext2fs.AllocRuns

/-!
# Where a new directory goes

`ext2_valloc` starts the search for an inode in the group of the parent, or, for a directory, in the one that
`ext2_dirpref` selects.  Below the root directory that is the group with the fewest directories; elsewhere the
groups are gone through from that of the parent on, and the first within some limits is taken, or else the
first with as many free inodes as there are on the average.

* `ext2Dirpref`, `vallocGroup` — the selection;
* `rootRounds_spec` — the loop below the root directory;
* `exists_average` — some group has as many free inodes as the average;
* **`directory_placed`** — the group of a new directory, and the inode it gets.
-/

namespace Ext2fs.GroupMap.Allocator

open NumberPool

/-! ### The selection -/

/-- `AVGDIRSIZE` -/
def AVGDIRSIZE : ℕ := 1048576

/-- `AFPDIR`, the files that are expected in a directory. -/
def AFPDIR : ℕ := 64

section Selection

variable (fs : MExt2fs) (gd : ℕ → Group) (sb : Totals)

/-- `avgifree` -/
def avgifree : ℕ := sb.ficount / fs.gcount

/-- `avgbfree` -/
def avgbfree : ℕ := sb.fbcount / fs.gcount

/-- `avgndir` -/
def avgndir : ℕ := sb.totalDir / fs.gcount

/-- Three quarters of an average, and at least one. -/
def lessQuarter (avg : ℕ) : ℕ := if avg - avg / 4 < 1 then 1 else avg - avg / 4

/-- `maxndir` -/
def maxndir : ℕ := min (u32 (avgndir fs sb + fs.ipg / 16 : ℕ)) fs.ipg

/-- `dirsize`; `cgsize` is an `int`, and the difference is unsigned. -/
def dirsize : ℕ :=
  let cgsize := i32 (fs.fsize * fs.fpg : ℕ)
  let curdirsize :=
    if avgndir fs sb ≠ 0 then u32 (cgsize - avgbfree fs sb * fs.bsize) / avgndir fs sb else 0
  if AVGDIRSIZE < curdirsize then curdirsize else AVGDIRSIZE

/-- `maxcontigdirs` -/
def maxcontigdirs : ℕ :=
  let m := min (u32 (avgbfree fs sb * fs.bsize : ℕ) / dirsize fs sb) 255
  let m := min m (fs.ipg / AFPDIR)
  if m = 0 then 1 else m

/-- The groups from `prefcg` on, and then those before it. -/
def groupsRound (prefcg : ℕ) : List ℕ := List.range' prefcg (fs.gcount - prefcg) ++ List.range prefcg

/-- A group with as many free inodes and free blocks as the average. -/
def Roomy (cg : ℕ) : Prop := avgifree fs sb ≤ (gd cg).nifree ∧ avgbfree fs sb ≤ (gd cg).nbfree

instance (cg : ℕ) : Decidable (Roomy fs gd sb cg) := inferInstanceAs (Decidable (_ ∧ _))

/-- One round of the loops below the root directory, over `mincg` and `minndir`. -/
def rootRound (m : ℕ × ℕ) (cg : ℕ) : ℕ × ℕ :=
  if (gd cg).ndirs < m.2 ∧ Roomy fs gd sb cg then (cg, (gd cg).ndirs) else m

/-- A group within the limits. -/
def WithinLimits (contigdirs : ℕ → ℕ) (cg : ℕ) : Prop :=
  ((gd cg).ndirs < maxndir fs sb ∧ lessQuarter (avgifree fs sb) ≤ (gd cg).nifree ∧
    lessQuarter (avgbfree fs sb) ≤ (gd cg).nbfree) ∧ contigdirs cg < maxcontigdirs fs sb

instance (contigdirs : ℕ → ℕ) (cg : ℕ) : Decidable (WithinLimits fs gd sb contigdirs cg) :=
  inferInstanceAs (Decidable (_ ∧ _))

/-- `ext2_dirpref`, for the directory `ino`; `r` is a random number. -/
def ext2Dirpref (contigdirs : ℕ → ℕ) (isRoot : Bool) (r ino : ℕ) : ℕ :=
  if isRoot then
    let prefcg := r % fs.gcount
    ((groupsRound fs prefcg).foldl (rootRound fs gd sb) (prefcg, fs.ipg)).1
  else
    let prefcg := (ino - 1) / fs.ipg
    match (groupsRound fs prefcg).find? fun cg => WithinLimits fs gd sb contigdirs cg with
    | some cg => cg
    | none => ((groupsRound fs prefcg).find? fun cg => avgifree fs sb ≤ (gd cg).nifree).getD prefcg

/-- The group in which `ext2_valloc` starts, and `e2fs_contigdirs` afterwards. -/
def vallocGroup (contigdirs : ℕ → ℕ) (isRoot : Bool) (r ino : ℕ) (isDir : Bool) : ℕ × (ℕ → ℕ) :=
  if isDir then
    let cg := ext2Dirpref fs gd sb contigdirs isRoot r ino
    (cg, if contigdirs cg < 255 then Function.update contigdirs cg (contigdirs cg + 1) else contigdirs)
  else
    let cg := (ino - 1) / fs.ipg
    (cg, if 0 < contigdirs cg then Function.update contigdirs cg (contigdirs cg - 1) else contigdirs)

end Selection

section

variable {fs : MExt2fs} {gd : ℕ → Group} {sb : Totals} {contigdirs : ℕ → ℕ} {prefcg cg r ino : ℕ}

/-! ### The groups in their order -/

theorem mem_groupsRound (hpref : prefcg < fs.gcount) : cg ∈ groupsRound fs prefcg ↔ cg < fs.gcount := by
  simp only [groupsRound, List.mem_append, List.mem_range'_1, List.mem_range]
  omega

/-- The first group of a search, and those before it. -/
theorem find_round {p : ℕ → Bool} (hpref : prefcg < fs.gcount)
    (h : (groupsRound fs prefcg).find? p = some cg) :
    cg < fs.gcount ∧ p cg = true ∧ ∃ before behind, groupsRound fs prefcg = before ++ cg :: behind ∧
      ∀ c ∈ before, p c = false := by
  obtain ⟨hp, before, behind, heq, hbefore⟩ := List.find?_eq_some_iff_append.1 h
  refine ⟨(mem_groupsRound hpref).1 (List.mem_of_find?_eq_some h), hp, before, behind, heq, ?_⟩
  intro c hc
  simpa using hbefore c hc

/-! ### Below the root directory -/

/-- **The loop below the root directory**: the group changes only to one with room and fewer directories,
and none with room has fewer than the last. -/
theorem rootRounds_spec (fs : MExt2fs) (gd : ℕ → Group) (sb : Totals) (l : List ℕ) (m : ℕ × ℕ) :
    (l.foldl (rootRound fs gd sb) m = m ∨
      ∃ cg ∈ l, l.foldl (rootRound fs gd sb) m = (cg, (gd cg).ndirs) ∧ Roomy fs gd sb cg) ∧
    (l.foldl (rootRound fs gd sb) m).2 ≤ m.2 ∧
    ∀ cg ∈ l, Roomy fs gd sb cg → (l.foldl (rootRound fs gd sb) m).2 ≤ (gd cg).ndirs := by
  induction l generalizing m with
  | nil => simp
  | cons c l ih =>
    obtain ⟨hfrom, hle, hleast⟩ := ih (rootRound fs gd sb m c)
    rw [List.foldl_cons]
    have hround : (rootRound fs gd sb m c).2 ≤ m.2 := by
      rw [rootRound]
      split
      next h => exact h.1.le
      next => exact le_rfl
    refine ⟨?_, hle.trans hround, ?_⟩
    · rcases hfrom with hsame | ⟨cg, hcg, heq, hroomy⟩
      · rw [hsame, rootRound]
        split
        next h => exact .inr ⟨c, List.mem_cons_self .., rfl, h.2⟩
        next => exact .inl rfl
      · exact .inr ⟨cg, List.mem_cons_of_mem c hcg, heq, hroomy⟩
    · intro cg hcg hroomy
      rcases List.mem_cons.1 hcg with rfl | hcg
      · refine hle.trans ?_
        rw [rootRound]
        split
        next => exact le_rfl
        next h => exact Nat.le_of_not_lt fun hlt => h ⟨hlt, hroomy⟩
      · exact hleast cg hcg hroomy

/-! ### The average -/

/-- **Some group has as many free inodes as the average.** -/
theorem exists_average (h : CountersOk fs gd sb) (hpos : 0 < fs.gcount) :
    ∃ cg < fs.gcount, avgifree fs sb ≤ (gd cg).nifree := by
  by_contra hno
  have hless : ∀ c ∈ Finset.range fs.gcount, (gd c).nifree < avgifree fs sb := by
    intro c hc
    by_contra hge
    exact hno ⟨c, Finset.mem_range.1 hc, Nat.le_of_not_lt hge⟩
  have hsum : ∑ c ∈ Finset.range fs.gcount, (gd c).nifree <
      ∑ _c ∈ Finset.range fs.gcount, avgifree fs sb :=
    Finset.sum_lt_sum_of_nonempty ⟨0, Finset.mem_range.2 hpos⟩ hless
  rw [Finset.sum_const, Finset.card_range, smul_eq_mul, ← h.ficount] at hsum
  exact absurd (Nat.mul_div_le sb.ficount fs.gcount) (Nat.not_le.2 hsum)

theorem lessQuarter_pos (avg : ℕ) : 0 < lessQuarter avg := by
  rw [lessQuarter]
  split <;> omega

/-! ### The group of a new directory -/

/-- A group is the first in the order that has a property. -/
def FirstOf (groups : List ℕ) (p : ℕ → Prop) (cg : ℕ) : Prop :=
  p cg ∧ ∃ before behind, groups = before ++ cg :: behind ∧ ∀ c ∈ before, ¬p c

/-- The selection below the root directory. -/
theorem dirpref_root (gd : ℕ → Group) (sb : Totals) (contigdirs : ℕ → ℕ) (r ino : ℕ) (hpos : 0 < fs.gcount) :
    let cg := ext2Dirpref fs gd sb contigdirs true r ino
    cg < fs.gcount ∧ ((∃ c < fs.gcount, Roomy fs gd sb c ∧ (gd c).ndirs < fs.ipg) →
      Roomy fs gd sb cg ∧ ∀ c < fs.gcount, Roomy fs gd sb c → (gd cg).ndirs ≤ (gd c).ndirs) := by
  have hpref : r % fs.gcount < fs.gcount := Nat.mod_lt r hpos
  obtain ⟨hfrom, -, hleast⟩ := rootRounds_spec fs gd sb
    (groupsRound fs (r % fs.gcount)) (r % fs.gcount, fs.ipg)
  intro cg
  have hcg : cg = ((groupsRound fs (r % fs.gcount)).foldl (rootRound fs gd sb)
      (r % fs.gcount, fs.ipg)).1 := rfl
  rw [hcg]
  rcases hfrom with hsame | ⟨c, hc, heq, hroomy⟩
  · rw [hsame]
    refine ⟨hpref, ?_⟩
    rintro ⟨c, hc, hroomy, hdirs⟩
    have hnone := hleast c ((mem_groupsRound hpref).2 hc) hroomy
    rw [hsame] at hnone
    exact absurd hdirs (Nat.not_lt.2 hnone)
  · rw [heq] at hleast ⊢
    refine ⟨(mem_groupsRound hpref).1 hc, fun _ => ⟨hroomy, ?_⟩⟩
    intro c' hc' hroomy'
    exact hleast c' ((mem_groupsRound hpref).2 hc') hroomy'

/-- The selection elsewhere. -/
theorem dirpref_other (hg : Geometry fs) (h : CountersOk fs gd sb) (contigdirs : ℕ → ℕ) (r : ℕ)
    (hpos : 0 < ino) (hle : ino ≤ fs.gcount * fs.ipg) :
    let cg := ext2Dirpref fs gd sb contigdirs false r ino
    let groups := groupsRound fs ((ino - 1) / fs.ipg)
    cg < fs.gcount ∧ (FirstOf groups (WithinLimits fs gd sb contigdirs) cg ∨
      (∀ c < fs.gcount, ¬WithinLimits fs gd sb contigdirs c) ∧
        FirstOf groups (fun c => avgifree fs sb ≤ (gd c).nifree) cg) := by
  have hpref := (exists_inodeAt hg hpos hle).1
  intro cg groups
  cases hlimits : groups.find? fun cg => WithinLimits fs gd sb contigdirs cg with
  | some c =>
    obtain ⟨hc, hp, before, behind, heq, hbefore⟩ := find_round hpref hlimits
    have hcg : cg = c := by
      simp only [cg, ext2Dirpref, Bool.false_eq_true, if_false]
      rw [hlimits]
    rw [hcg]
    exact ⟨hc, .inl ⟨of_decide_eq_true hp, before, behind, heq, fun c hc =>
      of_decide_eq_false (hbefore c hc)⟩⟩
  | none =>
    have hnone : ∀ c < fs.gcount, ¬WithinLimits fs gd sb contigdirs c := by
      intro c hc
      have hno := List.find?_eq_none.1 hlimits c ((mem_groupsRound hpref).2 hc)
      simpa using hno
    have hcg : cg = (groups.find? fun cg => avgifree fs sb ≤ (gd cg).nifree).getD ((ino - 1) / fs.ipg) := by
      simp only [cg, ext2Dirpref, Bool.false_eq_true, if_false]
      rw [hlimits]
    cases haverage : groups.find? fun cg => decide (avgifree fs sb ≤ (gd cg).nifree) with
    | some c =>
      obtain ⟨hc, hp, before, behind, heq, hbefore⟩ := find_round hpref haverage
      rw [haverage, Option.getD_some] at hcg
      rw [hcg]
      exact ⟨hc, .inr ⟨hnone, of_decide_eq_true hp, before, behind, heq, fun c hc =>
        of_decide_eq_false (hbefore c hc)⟩⟩
    | none =>
      obtain ⟨c, hc, hge⟩ := exists_average h hg.gcount_pos
      have hno := List.find?_eq_none.1 haverage c ((mem_groupsRound hpref).2 hc)
      exact absurd (decide_eq_true hge) hno

/-- The group has a free inode, where the average is one. -/
theorem dirpref_nifree (hg : Geometry fs) (h : CountersOk fs gd sb) (contigdirs : ℕ → ℕ) (isRoot : Bool) (r : ℕ)
    (hpos : 0 < ino) (hle : ino ≤ fs.gcount * fs.ipg) (hmany : fs.gcount ≤ sb.ficount)
    (hroot : isRoot = true → ∃ c < fs.gcount, Roomy fs gd sb c ∧ (gd c).ndirs < fs.ipg) :
    0 < (gd (ext2Dirpref fs gd sb contigdirs isRoot r ino)).nifree := by
  have haverage : 0 < avgifree fs sb := Nat.div_pos hmany hg.gcount_pos
  cases isRoot with
  | true =>
    obtain ⟨-, hroomy⟩ := dirpref_root gd sb contigdirs r ino hg.gcount_pos
    exact haverage.trans_le (hroomy (hroot rfl)).1.1
  | false =>
    obtain ⟨-, hfirst | ⟨-, hfirst⟩⟩ := dirpref_other hg h contigdirs r hpos hle
    · exact (lessQuarter_pos _).trans_le hfirst.1.1.2.1
    · exact haverage.trans_le hfirst.1

/-- The group `ext2_valloc` starts in is one of the volume. -/
theorem vallocGroup_lt (hg : Geometry fs) (h : CountersOk fs gd sb) (contigdirs : ℕ → ℕ) (isRoot : Bool) (r : ℕ)
    (hpos : 0 < ino) (hle : ino ≤ fs.gcount * fs.ipg) (isDir : Bool) :
    (vallocGroup fs gd sb contigdirs isRoot r ino isDir).1 < fs.gcount := by
  cases isDir with
  | true =>
    cases isRoot with
    | true => exact (dirpref_root gd sb contigdirs r ino hg.gcount_pos).1
    | false => exact (dirpref_other hg h contigdirs r hpos hle).1
  | false => exact (exists_inodeAt hg hpos hle).1

/-- The counters of `e2fs_contigdirs` stay bytes. -/
theorem vallocGroup_contigdirs (isRoot : Bool) (isDir : Bool) (h : ∀ c, contigdirs c < 2 ^ 8) (c : ℕ) :
    (vallocGroup fs gd sb contigdirs isRoot r ino isDir).2 c < 2 ^ 8 := by
  have hc := h c
  cases isDir with
  | true =>
    simp only [vallocGroup, if_true]
    split
    next hlt =>
      rw [Function.update_apply]
      split <;> omega
    next => exact hc
  | false =>
    simp only [vallocGroup, Bool.false_eq_true, if_false]
    split
    next hlt =>
      have hcg := h ((ino - 1) / fs.ipg)
      rw [Function.update_apply]
      split <;> omega
    next => exact hc

variable {contigsumsize : ℕ} {s : AllocSys}

/-- A search that starts in a group with a free inode takes one of it. -/
theorem valloc_in_group (hg : Geometry fs) (hs : Consistent fs s) (hidle : s.flights = []) (isDir : Bool)
    (hcg : cg < fs.gcount) (hfree : 0 < (s.gd cg).nifree) :
    ∃ t n, run (step fs contigsumsize) (vallocOps fs isDir cg s) s = some (t, [.take n]) ∧
      t.flights = [] ∧ (Kind.inode isDir).At fs cg n := by
  obtain ⟨t, hist, hrun, hend, hhands⟩ : ∃ t h,
      run (step fs contigsumsize) (vallocOps fs isDir cg s) s = some (t, h) ∧ _ :=
    valloc_alone hg hs hidle isDir hcg
  rcases hhands with ⟨hzero, -⟩ | ⟨-, before, c, behind, n, heq, hbefore, hat, rfl⟩
  · have hle := hs.counters.ficount
    have hmem : cg ∈ Finset.range fs.gcount := Finset.mem_range.2 hcg
    have hone := Finset.single_le_sum (f := fun c => (s.gd c).nifree) (fun _ _ => Nat.zero_le _) hmem
    omega
  · cases before with
    | nil =>
      obtain ⟨rfl, -⟩ := List.cons_eq_cons.1 heq
      exact ⟨t, n, hrun, hend, hat⟩
    | cons c' before =>
      obtain ⟨rfl, -⟩ := List.cons_eq_cons.1 heq
      exact absurd (hbefore cg (List.mem_cons_self ..)) hfree.ne'

/-- **Where a new directory goes.**  On a volume whose counters agree `ext2_dirpref` selects a group of it.
Below the root directory none of the groups with as many free inodes and blocks as the average has fewer
directories, if one of these is not full of directories.  Elsewhere it is the first group, from that of the
parent on, within the limits, or, if there is none, the first with as many free inodes as the average.  If
there is a free inode for each group, `ext2_valloc` takes one of this group, where no other call runs. -/
theorem directory_placed (hg : Geometry fs) (hs : Consistent fs s) (hidle : s.flights = [])
    (contigdirs : ℕ → ℕ) (isRoot : Bool) (r : ℕ) (hpos : 0 < ino) (hle : ino ≤ fs.gcount * fs.ipg) :
    let cg := ext2Dirpref fs s.gd s.sb contigdirs isRoot r ino
    let groups := groupsRound fs ((ino - 1) / fs.ipg)
    let qualifies := ∃ c < fs.gcount, Roomy fs s.gd s.sb c ∧ (s.gd c).ndirs < fs.ipg
    cg < fs.gcount ∧
    (isRoot = true → qualifies → Roomy fs s.gd s.sb cg ∧
      ∀ c < fs.gcount, Roomy fs s.gd s.sb c → (s.gd cg).ndirs ≤ (s.gd c).ndirs) ∧
    (isRoot = false → FirstOf groups (WithinLimits fs s.gd s.sb contigdirs) cg ∨
      (∀ c < fs.gcount, ¬WithinLimits fs s.gd s.sb contigdirs c) ∧
        FirstOf groups (fun c => avgifree fs s.sb ≤ (s.gd c).nifree) cg) ∧
    (fs.gcount ≤ s.sb.ficount → (isRoot = true → qualifies) →
      ∃ t n, run (step fs contigsumsize) (vallocOps fs true cg s) s = some (t, [.take n]) ∧
        t.flights = [] ∧ (Kind.inode true).At fs cg n) := by
  intro cg groups qualifies
  have hcg : cg < fs.gcount := vallocGroup_lt hg hs.counters contigdirs isRoot r hpos hle true
  refine ⟨hcg, ?_, ?_, fun hmany hroot => ?_⟩
  · rintro rfl
    exact (dirpref_root s.gd s.sb contigdirs r ino hg.gcount_pos).2
  · rintro rfl
    exact (dirpref_other hg hs.counters contigdirs r hpos hle).2
  · exact valloc_in_group hg hs hidle true hcg
      (dirpref_nifree hg hs.counters contigdirs isRoot r hpos hle hmany hroot)

/-- A directory below the inode 11 of the volume of one group. -/
theorem directory_placed_oneGroup : ∃ t n,
    run (step oneGroup 4) (vallocOps oneGroup true
        (ext2Dirpref oneGroup oneGroupState.gd oneGroupState.sb (fun _ => 0) false 0 11) oneGroupState)
      oneGroupState = some (t, [.take n]) ∧ t.flights = [] ∧ (Kind.inode true).At oneGroup
        (ext2Dirpref oneGroup oneGroupState.gd oneGroupState.sb (fun _ => 0) false 0 11) n :=
  (directory_placed oneGroup_geometry oneGroup_consistent rfl (fun _ => 0) false 0 (by decide)
    (by decide)).2.2.2 (by decide) fun h => by cases h

end

end Ext2fs.GroupMap.Allocator
