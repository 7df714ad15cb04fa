import Ext2fs.Fsck.DupRuns
import Mathlib.Data.Set.Card

/-!
# When the claims are kept right

The counts that the passes keep are right when each walk finds what the first one counted: an inode that
is given up in `pass1`, or read differently later, takes back more than it had claimed, or less.

* `pass1Reach_twoPart` — the list is always in its two parts;
* `blockmap_iff`, `n_blks_eq` — the map and the count after any inodes have been cleared;
* `isClear_iff` — the inodes that are to be cleared;
* **`dups_iff`** — the volumes on which the claims are kept right.
-/

namespace Ext2fs.Fsck

open DupList

/-- An inode is to be cleared. -/
def IsClear (s : InoState) : Prop := s = .fclear ∨ s = .dclear

instance (s : InoState) : Decidable (IsClear s) := inferInstanceAs (Decidable (_ ∨ _))

section

variable (v : Layout) (d : Readings) (a : Replies)

/-- The passes have a reason to clear an inode: its type or its size, what the first walk met, or a block
that the second walk hands it first. -/
def Blamed (i : ℕ) : Prop :=
  IsClear (v.initState a i (d.next i)) ∨
  (v.walked d i = true ∧ ∃ pre post, v.inodes = pre ++ i :: post ∧
    Marks v (pre.flatMap (v.claims d)) MAXBAD (blockRefs v (d.next i))) ∨
  ∃ pre post, (v.rescanned.filter fun j => v.initState a j (d.next j) ≠ .ustate) = pre ++ i :: post ∧
    ∃ b, 2 ≤ claimCount v (v.allClaims d) b ∧ b ∈ blockRefs v (d.again i) ∧
      ∀ k ∈ pre, b ∉ blockRefs v (d.again k)

/-- What is taken back matches what was claimed.  Every block of the file system itself is marked, and
the inodes do not take back more than they claimed of it.  Of any other block the inodes that reference it
take back at least the claims, and the inodes without one of these fewer. -/
structure ClaimsMatch : Prop where
  marks : ∀ b ∈ v.metadata, b ∈ v.marks
  metadata : ∀ b ∈ v.metadata, ((v.used d a).flatMap (v.dropped d)).count b ≤ (v.allClaims d).count b
  enough : ∀ b ∉ v.metadata, (v.allClaims d).count b ≤
    (((v.used d a).filter fun i => b ∈ v.refs d i).flatMap (v.dropped d)).count b
  spare : ∀ b ∉ v.metadata, ∀ j ∈ v.used d a, b ∈ v.refs d j →
    (((v.used d a).erase j).flatMap (v.dropped d)).count b < (v.allClaims d).count b
  blamed : ∀ i ∈ v.used d a, (∃ b ∈ v.refs d i, 2 ≤ v.multiplicity d a b) → Blamed v d a i

end

variable {v : Layout} {d : Readings} {a : Replies} {st : Blocks} {found : List ℕ} {i j b : ℕ}

/-! ### The two parts of the list -/

/-- What `pass1check` does to the list. -/
theorem pass1check_dups : (pass1check v i b st).2.dups =
    if v.inRange b = true ∧ st.blockmap b = true ∧ st.dupblk < MAXDUP then st.dups.insert b
    else st.dups := by
  unfold pass1check
  by_cases hin : v.inRange b = true
  · rw [if_neg (inRange_iff.1 hin)]
    by_cases hmap : st.blockmap b = true
    · have hnot : ¬st.blockmap b = false := by simp [hmap]
      rw [if_neg hnot]
      dsimp only
      by_cases hdup : st.dupblk < MAXDUP
      · rw [if_neg (Nat.not_le.2 hdup), if_pos ⟨hin, hmap, hdup⟩]
      · rw [if_pos (Nat.not_lt.1 hdup), if_neg fun hc => hdup hc.2.2]
    · rw [if_pos (by simpa using hmap), if_neg fun hc => hmap hc.2.1]
  · have hno : ¬(v.inRange b = true ∧ st.blockmap b = true ∧ st.dupblk < MAXDUP) := fun hc => hin hc.1
    rw [if_pos (out_of_range hin), if_neg hno]
    dsimp only
    split <;> rfl

/-- **The list is in its two parts** after every call of `pass1check`. -/
theorem pass1Reach_twoPart (h : Pass1Reach v d found st) : TwoPart found st.dups := by
  induction h with
  | start => exact ⟨List.nodup_nil, fun x => Iff.rfl, fun x => rfl⟩
  | other _ _ hdups ih =>
    rw [hdups]
    exact ih
  | @check found st i b _ ih =>
    rw [pass1check_dups]
    by_cases hc : v.inRange b = true ∧ st.blockmap b = true ∧ st.dupblk < MAXDUP
    · rw [if_pos hc, if_pos hc]
      exact insert_keeps ih b
    · rw [if_neg hc, if_neg hc]
      exact ih

theorem callAll_reach (i : ℕ) (l : List ℕ) (h : ∃ found, Pass1Reach v d found st) :
    ∃ found, Pass1Reach v d found (callAll (pass1check v i) l st).2 := by
  induction l generalizing st with
  | nil => exact h
  | cons b l ih =>
    obtain ⟨found, hreach⟩ := h
    have hcall := hreach.check i b
    by_cases hstop : (pass1check v i b st).1 = .stop
    · rw [callAll_stop l hstop]
      exact ⟨_, hcall⟩
    · rw [callAll_go l hstop]
      exact ih ⟨_, hcall⟩

theorem checkinode_reach (i : ℕ) (h : ∃ found, Pass1Reach v d found st) :
    ∃ found, Pass1Reach v d found (checkinode v a i (d.next i) st) := by
  obtain ⟨found, hreach⟩ := h
  unfold checkinode
  dsimp only
  split
  · exact ⟨found, hreach.other rfl rfl⟩
  · let st₁ : Blocks := { st with
      statemap := Function.update st.statemap i (v.initState a i (d.next i))
      badblk := 0
      dupblk := 0
      id_entryno := 0 }
    have hreach₁ : Pass1Reach v d found st₁ := hreach.other rfl rfl
    have hwalk := callAll_reach i (blockRefs v (d.next i)) ⟨found, hreach₁⟩
    rw [← ckinode_snd v (pass1check_answers i)] at hwalk
    obtain ⟨found', hrun⟩ := hwalk
    split
    · exact ⟨found', hrun.other rfl rfl⟩
    · exact ⟨found', hrun.other rfl rfl⟩

/-- `pass1` is a run of such calls. -/
theorem pass1_reach : ∃ found, Pass1Reach v d found (pass1 v d a) := by
  have hrun : ∀ (is : List ℕ) (st : Blocks), (∃ found, Pass1Reach v d found st) →
      ∃ found, Pass1Reach v d found (is.foldl (fun st i => checkinode v a i (d.next i) st) st) := by
    intro is
    induction is with
    | nil => exact fun st h => h
    | cons i is ih => exact fun st h => ih _ (checkinode_reach i h)
  exact hrun v.inodes _ ⟨[], .start⟩

/-! ### The counts after the passes -/

/-- The blocks that the inodes reference in the first walk and when they are cleared. -/
def touched (v : Layout) (d : Readings) : Finset ℕ :=
  (v.inodes.flatMap fun i => blockRefs v (d.next i) ++ blockRefs v (d.last i)).toFinset

theorem mem_touched_next (hi : i ∈ v.inodes) (hb : b ∈ blockRefs v (d.next i)) : b ∈ touched v d :=
  List.mem_toFinset.2 (List.mem_flatMap.2 ⟨i, hi, List.mem_append_left _ hb⟩)

theorem mem_touched_last (hi : i ∈ v.inodes) (hb : b ∈ blockRefs v (d.last i)) : b ∈ touched v d :=
  List.mem_toFinset.2 (List.mem_flatMap.2 ⟨i, hi, List.mem_append_right _ hb⟩)

theorem used_subset : v.used d a ⊆ v.inodes := List.filter_subset_self _

theorem used_nodup : (v.used d a).Nodup := (inodes_nodup v).filter _

theorem mem_used : i ∈ v.used d a ↔ i ∈ v.inodes ∧ v.initState a i (d.next i) ≠ .ustate := by
  unfold Layout.used
  rw [List.mem_filter]
  simp

/-- The claims of an inode are references of it. -/
theorem claimsOf_subset (k : ℕ) (l : List ℕ) : ∀ b ∈ claimsOf v k l, b ∈ l.filter v.inRange := by
  induction l generalizing k with
  | nil => simp
  | cons x l ih =>
    intro b hb
    by_cases hin : v.inRange x = true
    · rw [claimsOf_in hin] at hb
      rw [List.filter_cons_of_pos hin]
      exact List.mem_cons.2 ((List.mem_cons.1 hb).imp_right (ih k b))
    · rw [List.filter_cons_of_neg hin]
      cases k with
      | zero =>
        rw [show claimsOf v 0 (x :: l) = [] from if_neg hin] at hb
        exact absurd hb List.not_mem_nil
      | succ k =>
        rw [show claimsOf v (k + 1) (x :: l) = claimsOf v k l from if_neg hin] at hb
        exact ih k b hb

/-- An inode that is walked is there. -/
theorem walked_used (hw : v.walked d i = true) : v.initState a i (d.next i) ≠ .ustate := by
  have hno := walked_iff.1 hw
  rw [not_or] at hno
  unfold Layout.initState
  rw [if_neg hno.1, if_neg hno.2]
  split
  · split <;> exact InoState.noConfusion
  · exact InoState.noConfusion

/-- A claimed block is referenced by an inode that is there. -/
theorem mem_allClaims (h : b ∈ v.allClaims d) : ∃ i ∈ v.used d a, b ∈ v.refs d i := by
  obtain ⟨i, hi, hb⟩ := List.mem_flatMap.1 h
  unfold Layout.claims at hb
  by_cases hw : v.walked d i = true
  · rw [if_pos hw] at hb
    exact ⟨i, mem_used.2 ⟨hi, walked_used hw⟩, claimsOf_subset _ _ b hb⟩
  · rw [if_neg hw] at hb
    exact absurd hb List.not_mem_nil

/-- The counts after the first two walks. -/
theorem passes_counted (hw : Within v d) :
    Counted v (touched v d) (claimCount v (v.allClaims d)) (pass1b v d (pass1 v d a)) := by
  obtain ⟨hcl, -⟩ := pass1_spec (a := a) hw fun i hi b hb _ => mem_touched_next hi hb
  obtain ⟨found, hreach⟩ := pass1_reach (v := v) (d := d) (a := a)
  exact (pass1b_spec hcl.counted (pass1Reach_twoPart hreach)).1

theorem cleared_counted (hw : Within v d) {is : List ℕ} (his : is ⊆ v.used d a) :
    Counted v (touched v d)
      (fun b => claimCount v (v.allClaims d) b - (is.flatMap (v.dropped d)).count b)
      (clearAll v d is (pass1b v d (pass1 v d a))) :=
  clearAll_counted is (fun _ hi _ hb _ => mem_touched_last (used_subset (his hi)) hb)
    (passes_counted hw)

/-- **The map** after some inodes have been cleared. -/
theorem blockmap_iff (hw : Within v d) {is : List ℕ} (his : is ⊆ v.used d a) (b : ℕ) :
    (clearAll v d is (pass1b v d (pass1 v d a))).blockmap b = true ↔
      (is.flatMap (v.dropped d)).count b < claimCount v (v.allClaims d) b := by
  rw [(cleared_counted hw his).map]
  exact Nat.sub_pos_iff_lt

theorem metadata_of_marks (h : b ∈ v.marks) : b ∈ v.metadata := by
  obtain ⟨c, hc, hb⟩ := List.mem_flatMap.1 h
  refine List.mem_flatMap.2 ⟨c, hc, ?_⟩
  unfold Layout.groupMarks at hb
  unfold Layout.groupBlocks
  simp only [List.mem_append] at hb ⊢
  rcases hb with hb | hb | hb | hb
  · split at hb
    · exact .inl hb
    · exact absurd hb List.not_mem_nil
  · split at hb
    · exact .inr (.inl hb)
    · exact absurd hb List.not_mem_nil
  · split at hb
    · exact .inr (.inr (.inl hb))
    · exact absurd hb List.not_mem_nil
  · exact .inr (.inr (.inr hb))

/-- What is counted over the blocks that have been touched. -/
theorem sum_eq_card {cnt : ℕ → ℕ} {U : Finset ℕ} (h : ∀ b ∈ v.marks, 0 < cnt b) :
    ∑ b ∈ U, ((if 0 < cnt b then 1 else 0) - (if b ∈ v.marks then 1 else 0) : ℤ) =
      (U.filter fun b => 0 < cnt b ∧ b ∉ v.marks).card := by
  rw [Finset.card_filter]
  push_cast
  refine Finset.sum_congr rfl fun b _ => ?_
  by_cases hm : b ∈ v.marks
  · rw [if_pos (h b hm), if_pos hm, if_neg fun hc => hc.2 hm]
    rfl
  · rw [if_neg hm, sub_zero]
    exact if_congr ⟨fun hc => ⟨hc, hm⟩, fun hc => hc.1⟩ rfl rfl

/-- The bits that are not of the file system itself are among the blocks touched. -/
theorem inodeBits_eq (hw : Within v d) {is : List ℕ} (his : is ⊆ v.used d a) :
    {b | (clearAll v d is (pass1b v d (pass1 v d a))).blockmap b = true ∧ b ∉ v.metadata} =
      ((touched v d).filter fun b =>
        0 < claimCount v (v.allClaims d) b - (is.flatMap (v.dropped d)).count b ∧
          b ∉ v.metadata : Finset ℕ) := by
  ext b
  rw [Finset.mem_coe, Finset.mem_filter, Nat.sub_pos_iff_lt, ← blockmap_iff hw his]
  refine ⟨fun hb => ⟨?_, hb⟩, fun hb => hb.2⟩
  have hlt := (blockmap_iff hw his b).1 hb.1
  have hpos : 0 < (v.allClaims d).count b := by
    unfold claimCount at hlt
    rw [if_neg fun hm => hb.2 (metadata_of_marks hm)] at hlt
    omega
  obtain ⟨i, hi, href⟩ := mem_allClaims (a := a) (List.count_pos_iff.1 hpos)
  exact mem_touched_next (used_subset hi) (List.mem_of_mem_filter href)

/-! ### The inodes that are to be cleared -/

theorem initState_ne (i : ℕ) (dp : Dinode) : v.initState a i dp ≠ .dfound := by
  unfold Layout.initState
  repeat' split
  all_goals exact InoState.noConfusion

theorem isClear_clearState {s : InoState} (h : s ≠ .ustate) (h' : s ≠ .dfound) :
    IsClear (clearState s) := by
  cases s with
  | ustate => exact absurd rfl h
  | dfound => exact absurd rfl h'
  | fstate => exact .inl rfl
  | dstate => exact .inr rfl
  | dclear => exact .inr rfl
  | fclear => exact .inl rfl

theorem clearState_eq_ustate (s : InoState) : clearState s = .ustate ↔ s = .ustate := by
  cases s <;> decide

theorem stateAfter_eq_ustate (cl : List ℕ) (i : ℕ) :
    v.stateAfter d a cl i = .ustate ↔ v.initState a i (d.next i) = .ustate := by
  unfold Layout.stateAfter
  split
  · exact clearState_eq_ustate _
  · exact Iff.rfl

/-- An inode has one place among the inodes. -/
theorem split_unique {is pre post pre' post' : List ℕ} (h : is.Nodup) (h₁ : is = pre ++ i :: post)
    (h₂ : is = pre' ++ i :: post') : pre = pre' := by
  subst h₁
  have hnot : i ∉ pre := fun hc =>
    (List.nodup_append.1 h).2.2 i hc i (List.mem_cons_self ..) rfl
  have hnot' : i ∉ pre' := fun hc => by
    rw [h₂] at h
    exact (List.nodup_append.1 h).2.2 i hc i (List.mem_cons_self ..) rfl
  rcases List.append_eq_append_iff.1 h₂ with ⟨t, hpre, ht⟩ | ⟨t, hpre, ht⟩
  · cases t with
    | nil => rw [hpre, List.append_nil]
    | cons x t =>
      obtain ⟨rfl, -⟩ := List.cons.inj ht
      exact absurd (hpre ▸ List.mem_append_right _ (List.mem_cons_self ..)) hnot'
  · cases t with
    | nil => rw [hpre, List.append_nil]
    | cons x t =>
      obtain ⟨rfl, -⟩ := List.cons.inj ht
      exact absurd (hpre ▸ List.mem_append_right _ (List.mem_cons_self ..)) hnot

theorem rescanned_subset : v.rescanned ⊆ v.inodes := by
  intro i hi
  unfold Layout.rescanned at hi
  obtain ⟨hlt, hp⟩ := List.mem_filter.1 hi
  refine List.mem_filter.2 ⟨List.mem_range'_1.2 ⟨?_, ?_⟩, hp⟩
  · rcases of_decide_eq_true hp with rfl | hge
    · decide
    · exact le_trans (by decide) hge
  · rw [Nat.add_comm]
    exact Nat.lt_succ_of_lt (List.mem_range.1 hlt)

/-- The state after the first two walks. -/
theorem isClear_iff (hw : Within v d) (hi : i ∈ v.used d a) :
    IsClear ((pass1b v d (pass1 v d a)).statemap i) ↔ Blamed v d a i := by
  obtain ⟨hcl, hst⟩ := pass1_spec (a := a) hw fun i hi b hb _ => mem_touched_next hi hb
  obtain ⟨found, hreach⟩ := pass1_reach (v := v) (d := d) (a := a)
  have htwo := pass1Reach_twoPart hreach
  obtain ⟨-, hblames⟩ := pass1b_spec (d := d) hcl.counted htwo
  obtain ⟨hmem, hused⟩ := mem_used.1 hi
  obtain ⟨pre, post, hsplit⟩ := List.append_of_mem hmem
  have hstate := hst pre i post hsplit
  -- the blocks of the first part
  have hfirst : ∀ b, b ∈ (pass1 v d a).dups.first ↔ 2 ≤ claimCount v (v.allClaims d) b := by
    intro b
    have hcount := hcl.counted.dups b
    rw [htwo.count] at hcount
    rw [htwo.mem_first, ← List.count_pos_iff, hcount]
    omega
  -- the inodes of the second walk
  have hfilter : v.rescanned.filter ((pass1 v d a).statemap · ≠ .ustate) =
      v.rescanned.filter fun j => v.initState a j (d.next j) ≠ .ustate := by
    refine List.filter_congr fun j hj => ?_
    obtain ⟨pre', post', hsplit'⟩ := List.append_of_mem (rescanned_subset hj)
    rw [hst pre' j post' hsplit']
    exact decide_eq_decide.2 (not_congr (stateAfter_eq_ustate _ j))
  have hcaller : FirstCaller (pass1 v d a).dups.first (fun i => blockRefs v (d.again i))
      (v.rescanned.filter ((pass1 v d a).statemap · ≠ .ustate)) i ↔
      ∃ pre post, (v.rescanned.filter fun j => v.initState a j (d.next j) ≠ .ustate) =
        pre ++ i :: post ∧ ∃ b, 2 ≤ claimCount v (v.allClaims d) b ∧ b ∈ blockRefs v (d.again i) ∧
          ∀ k ∈ pre, b ∉ blockRefs v (d.again k) := by
    unfold FirstCaller
    rw [hfilter]
    simp only [hfirst]
  obtain ⟨hyes, hno⟩ := hblames i
  by_cases hc : FirstCaller (pass1 v d a).dups.first (fun i => blockRefs v (d.again i))
      (v.rescanned.filter ((pass1 v d a).statemap · ≠ .ustate)) i
  · refine iff_of_true ?_ (.inr (.inr (hcaller.1 hc)))
    rw [hyes hc, hstate]
    refine isClear_clearState ((stateAfter_eq_ustate _ i).not.2 hused) ?_
    unfold Layout.stateAfter
    split
    · exact fun h => initState_ne (v := v) (a := a) i (d.next i) (by
        revert h
        cases v.initState a i (d.next i) <;> decide)
    · exact initState_ne i _
  · rw [hno hc, hstate]
    unfold Layout.stateAfter Blamed
    rw [← hcaller, or_iff_left hc]
    by_cases hm : v.walked d i = true ∧ Marks v (pre.flatMap (v.claims d)) MAXBAD
        (blockRefs v (d.next i))
    · rw [if_pos hm]
      exact iff_of_true (isClear_clearState hused (initState_ne i _))
        (.inr ⟨hm.1, pre, post, hsplit, hm.2⟩)
    · rw [if_neg hm]
      refine ⟨.inl, fun h => h.resolve_right ?_⟩
      rintro ⟨hwalk, pre', post', hsplit', hmarks⟩
      rw [← split_unique (inodes_nodup v) hsplit hsplit'] at hmarks
      exact hm ⟨hwalk, hmarks⟩

/-! ### What matches -/

/-- More inodes take back more. -/
theorem flatMap_count_le {is js : List ℕ} (f : ℕ → List ℕ) (h : is.Nodup) (hsub : is ⊆ js) (b : ℕ) :
    (is.flatMap f).count b ≤ (js.flatMap f).count b := by
  obtain ⟨l, hperm, hsublist⟩ := List.subperm_of_subset h hsub
  rw [← (hperm.flatMap_right f).count_eq]
  exact (hsublist.flatMap f).count_le b

/-- With all blocks of the file system marked. -/
theorem claimCount_eq (h : ∀ b ∈ v.metadata, b ∈ v.marks) (cl : List ℕ) (b : ℕ) :
    claimCount v cl b = (if b ∈ v.metadata then 1 else 0) + cl.count b :=
  congrArg (· + cl.count b) (if_congr ⟨metadata_of_marks, h b⟩ rfl rfl)

/-- A claim list that is kept right has all blocks of the file system marked. -/
theorem marks_of_right (hw : Within v d) (h : DupsRight v d a) : ∀ b ∈ v.metadata, b ∈ v.marks := by
  intro b hb
  have hnil : ([] : List ℕ) ⊆ v.used d a := List.nil_subset _
  by_contra hm
  have hn := h.n_blks [] List.nodup_nil hnil
  rw [inodeBits_eq hw hnil, Set.ncard_coe_finset, (cleared_counted hw hnil).n_blks,
    sum_eq_card (fun b hb => by
      show 0 < claimCount v _ b - 0
      unfold claimCount
      rw [if_pos hb]
      omega)] at hn
  have hsub : ((touched v d).filter fun b => 0 < claimCount v (v.allClaims d) b - 0 ∧ b ∉ v.metadata) ⊆
      (touched v d).filter fun b => 0 < claimCount v (v.allClaims d) b - 0 ∧ b ∉ v.marks :=
    Finset.monotone_filter_right _ fun x _ hx => ⟨hx.1, fun hc => hx.2 (metadata_of_marks hc)⟩
  have heq := Finset.eq_of_subset_of_card_le hsub (Int.ofNat_le.1 hn.le)
  have hpos := (blockmap_iff hw hnil b).1 ((h.blockmap [] List.nodup_nil hnil b).2 (.inl hb))
  replace hpos : 0 < claimCount v (v.allClaims d) b := hpos
  have hcl : 0 < (v.allClaims d).count b := by
    unfold claimCount at hpos
    rw [if_neg hm] at hpos
    omega
  obtain ⟨i, hi, href⟩ := mem_allClaims (a := a) (List.count_pos_iff.1 hcl)
  have hin : b ∈ (touched v d).filter fun b =>
      0 < claimCount v (v.allClaims d) b - 0 ∧ b ∉ v.marks :=
    Finset.mem_filter.2 ⟨mem_touched_next (used_subset hi) (List.mem_of_mem_filter href), hpos, hm⟩
  rw [← heq] at hin
  exact (Finset.mem_filter.1 hin).2.2 hb

theorem claimsMatch_of_right (hw : Within v d) (h : DupsRight v d a) : ClaimsMatch v d a := by
  have hmarks := marks_of_right hw h
  refine ⟨hmarks, fun b hb => ?_, fun b hb => ?_, fun b hb j hj href => ?_, fun i hi hex => ?_⟩
  · have hlt := (blockmap_iff hw (List.Subset.refl _) b).1
      ((h.blockmap _ used_nodup (List.Subset.refl _) b).2 (.inl hb))
    rw [claimCount_eq hmarks, if_pos hb] at hlt
    omega
  · have hsub : ((v.used d a).filter fun i => b ∈ v.refs d i) ⊆ v.used d a := List.filter_subset_self _
    by_contra hc
    have hlt : (((v.used d a).filter fun i => b ∈ v.refs d i).flatMap (v.dropped d)).count b <
        claimCount v (v.allClaims d) b := by
      rw [claimCount_eq hmarks, if_neg hb, Nat.zero_add]
      exact Nat.lt_of_not_le hc
    rcases (h.blockmap _ (used_nodup.filter _) hsub b).1 ((blockmap_iff hw hsub b).2 hlt) with
      hmeta | ⟨i, hi, hno, href⟩
    · exact hb hmeta
    · exact hno (List.mem_filter.2 ⟨hi, decide_eq_true href⟩)
  · have hsub : (v.used d a).erase j ⊆ v.used d a := List.erase_subset
    have hno : j ∉ (v.used d a).erase j := used_nodup.not_mem_erase
    have hlt := (blockmap_iff hw hsub b).1
      ((h.blockmap _ (used_nodup.erase j) hsub b).2 (.inr ⟨j, hj, hno, href⟩))
    rwa [claimCount_eq hmarks, if_neg hb, Nat.zero_add] at hlt
  · exact (isClear_iff hw hi).1 (h.marked i hi hex)

theorem blockmap_right (hw : Within v d) (h : ClaimsMatch v d a) {is : List ℕ} (hnodup : is.Nodup)
    (his : is ⊆ v.used d a) (b : ℕ) :
    (clearAll v d is (pass1b v d (pass1 v d a))).blockmap b = true ↔
      b ∈ v.metadata ∨ ∃ i ∈ v.used d a, i ∉ is ∧ b ∈ v.refs d i := by
  rw [blockmap_iff hw his, claimCount_eq h.marks]
  by_cases hb : b ∈ v.metadata
  · have hle := flatMap_count_le (v.dropped d) hnodup his b
    have hall := h.metadata b hb
    rw [if_pos hb]
    exact iff_of_true (by omega) (.inl hb)
  · rw [if_neg hb, Nat.zero_add, or_iff_right hb]
    by_cases hex : ∃ i ∈ v.used d a, i ∉ is ∧ b ∈ v.refs d i
    · obtain ⟨j, hj, hno, href⟩ := hex
      refine iff_of_true ?_ ⟨j, hj, hno, href⟩
      have hsub : is ⊆ (v.used d a).erase j := fun i hi =>
        (List.mem_erase_of_ne (ne_of_mem_of_not_mem hi hno)).2 (his hi)
      exact (flatMap_count_le _ hnodup hsub b).trans_lt (h.spare b hb j hj href)
    · refine iff_of_false (Nat.not_lt.2 ?_) hex
      have hsub : ((v.used d a).filter fun i => b ∈ v.refs d i) ⊆ is := by
        intro i hi
        obtain ⟨hu, href⟩ := List.mem_filter.1 hi
        by_contra hno
        exact hex ⟨i, hu, hno, of_decide_eq_true href⟩
      exact (h.enough b hb).trans (flatMap_count_le _ (used_nodup.filter _) hsub b)

theorem n_blks_right (hw : Within v d) (h : ClaimsMatch v d a) {is : List ℕ} (hnodup : is.Nodup)
    (his : is ⊆ v.used d a) :
    (clearAll v d is (pass1b v d (pass1 v d a))).n_blks =
      Set.ncard {b | (clearAll v d is (pass1b v d (pass1 v d a))).blockmap b = true ∧
        b ∉ v.metadata} := by
  have hpos : ∀ b ∈ v.marks,
      0 < claimCount v (v.allClaims d) b - (is.flatMap (v.dropped d)).count b := fun b hb =>
    Nat.sub_pos_of_lt ((blockmap_iff hw his b).1
      ((blockmap_right hw h hnodup his b).2 (.inl (metadata_of_marks hb))))
  rw [inodeBits_eq hw his, Set.ncard_coe_finset, (cleared_counted hw his).n_blks, sum_eq_card hpos]
  refine congrArg Nat.cast (congrArg Finset.card (Finset.filter_congr fun b _ => ?_))
  exact and_congr_right fun _ => ⟨fun hm hc => hm (h.marks b hc), fun hm hc => hm (metadata_of_marks hc)⟩

/-- **The claims are kept right** exactly when what is taken back matches what was claimed. -/
theorem dups_iff (v : Layout) (d : Readings) (a : Replies) (hw : Within v d) :
    DupsRight v d a ↔ ClaimsMatch v d a :=
  ⟨claimsMatch_of_right hw, fun h =>
    ⟨fun _ _ => pass1Reach_twoPart, fun _ hi hex => (isClear_iff hw hi).2 (h.blamed _ hi hex),
      fun _ hnodup his => blockmap_right hw h hnodup his, fun _ hnodup his => n_blks_right hw h hnodup his⟩⟩

/-! ### A volume that is read the same each time -/

/-- Every inode is read the same each time and claims all its blocks, and all blocks of the file system
itself are marked. -/
structure Settled (v : Layout) (d : Readings) (a : Replies) : Prop where
  again : ∀ i ∈ v.used d a, d.again i = d.next i
  last : ∀ i ∈ v.used d a, d.last i = d.next i
  claims : ∀ i ∈ v.used d a, v.claims d i = v.refs d i
  marks : ∀ b ∈ v.metadata, b ∈ v.marks

/-- The second walk leaves out at most the last inode. -/
theorem rescanned_prefix (v : Layout) : ∃ t, v.inodes = v.rescanned ++ t ∧ t.length ≤ 1 := by
  unfold Layout.inodes Layout.rescanned
  cases v.gcount * v.ipg with
  | zero => exact ⟨[], rfl, Nat.zero_le 1⟩
  | succ n =>
    refine ⟨[n + 1].filter fun i => i = ROOTINO ∨ FIRSTINO ≤ i, ?_, List.length_filter_le ..⟩
    have hrange : List.range (n + 1) = 0 :: List.range' 1 n := by
      rw [List.range_eq_range', List.range'_succ]
    have hzero : (0 :: List.range' 1 n).filter (fun i => i = ROOTINO ∨ FIRSTINO ≤ i) =
        (List.range' 1 n).filter fun i => i = ROOTINO ∨ FIRSTINO ≤ i :=
      List.filter_cons_of_neg (by decide)
    rw [List.range'_1_concat, hrange, List.filter_append, hzero, Nat.add_comm 1 n]

/-- A block that is claimed before, or twice, is found as a duplicate. -/
theorem dupsOf_pos {l cl : List ℕ} (hb : b ∈ l) (h : 0 < claimCount v cl b ∨ 2 ≤ l.count b) :
    0 < dupsOf v cl l := by
  induction l generalizing cl with
  | nil => exact absurd hb List.not_mem_nil
  | cons x l ih =>
    rw [dupsOf_cons]
    by_cases hx : x = b
    · rcases h with h | h
      · rw [hx, if_pos h]
        omega
      · rw [hx, List.count_cons_self] at h
        have hmem : b ∈ l := List.count_pos_iff.1 (by omega)
        have hrest := ih hmem (.inl (show 0 < claimCount v (cl ++ [x]) b by
          rw [← claimCount_snoc, hx, Function.update_self]
          omega))
        omega
    · have hmem : b ∈ l := (List.mem_cons.1 hb).resolve_left (Ne.symm hx)
      rw [List.count_cons_of_ne hx] at h
      have hleft : 0 < claimCount v (cl ++ [x]) b ∨ 2 ≤ l.count b := h.imp_left fun h => by
        rwa [← claimCount_snoc, Function.update_of_ne (Ne.symm hx)]
      have hrest := ih hmem hleft
      omega

theorem flatMap_filter {p : ℕ → Bool} (f : ℕ → List ℕ) {l : List ℕ}
    (h : ∀ i ∈ l, p i = false → b ∉ f i) : ((l.filter p).flatMap f).count b = (l.flatMap f).count b := by
  induction l with
  | nil => rfl
  | cons i l ih =>
    have hrest := ih fun j hj => h j (List.mem_cons_of_mem _ hj)
    rw [List.flatMap_cons, List.count_append]
    by_cases hp : p i = true
    · rw [List.filter_cons_of_pos hp, List.flatMap_cons, List.count_append, hrest]
    · rw [List.filter_cons_of_neg hp, hrest,
        List.count_eq_zero_of_not_mem (h i (List.mem_cons_self ..) (by simpa using hp)), Nat.zero_add]

namespace Settled

variable (h : Settled v d a)

include h

theorem dropped_eq (hi : i ∈ v.used d a) : v.dropped d i = v.refs d i := by
  unfold Layout.dropped Layout.refs
  rw [h.last i hi]

/-- The claims are the references. -/
theorem count_claims (b : ℕ) : (v.allClaims d).count b = ((v.used d a).flatMap (v.refs d)).count b := by
  have hused : ((v.used d a).flatMap (v.claims d)).count b = (v.allClaims d).count b := by
    refine flatMap_filter _ fun i hi hp hb => ?_
    obtain ⟨j, hj, -⟩ := mem_allClaims (a := a) (List.mem_flatMap.2 ⟨i, hi, hb⟩)
    unfold Layout.claims at hb
    by_cases hw : v.walked d i = true
    · have hstate := walked_used (a := a) hw
      exact hstate (by simpa using hp)
    · rw [if_neg hw] at hb
      exact List.not_mem_nil hb
  rw [← hused]
  exact congrArg (List.count b) (List.flatMap_congr h.claims)

theorem multiplicity_eq (b : ℕ) : v.multiplicity d a b = claimCount v (v.allClaims d) b := by
  rw [claimCount_eq h.marks, h.count_claims]
  rfl

/-- Every inode that references a multiply claimed block is blamed. -/
theorem blamed (hi : i ∈ v.used d a) (hb : b ∈ v.refs d i) (htwo : 2 ≤ v.multiplicity d a b) :
    Blamed v d a i := by
  obtain ⟨hmem, hstate⟩ := mem_used.1 hi
  obtain ⟨pre, post, hsplit⟩ := List.append_of_mem hmem
  have hclaims := h.claims i hi
  have hbc : b ∈ v.claims d i := hclaims ▸ hb
  have hwalk : v.walked d i = true := by
    by_contra hno
    unfold Layout.claims at hbc
    rw [if_neg hno] at hbc
    exact List.not_mem_nil hbc
  have hdef : v.claims d i = claimsOf v MAXBAD (blockRefs v (d.next i)) := if_pos hwalk
  by_cases hdup : 0 < claimCount v (pre.flatMap (v.claims d)) b ∨ 2 ≤ (v.claims d i).count b
  · -- the block is claimed before, or again by the same inode
    refine .inr (.inl ⟨hwalk, pre, post, hsplit, .inr ?_⟩)
    rw [← hdef]
    exact dupsOf_pos hbc hdup
  · -- the inode is the first to claim it, and a later one claims it too
    rw [not_or] at hdup
    rw [h.multiplicity_eq] at htwo
    have hlater : 0 < (post.flatMap (v.claims d)).count b := by
      have hall : v.allClaims d = pre.flatMap (v.claims d) ++ (v.claims d i ++ post.flatMap (v.claims d)) := by
        unfold Layout.allClaims
        rw [hsplit, List.flatMap_append, List.flatMap_cons]
      have hzero := hdup.1
      unfold claimCount at htwo hzero
      rw [hall, List.count_append, List.count_append] at htwo
      omega
    obtain ⟨t, hprefix, hlen⟩ := rescanned_prefix v
    have hpost : post ≠ [] := by
      rintro rfl
      exact Nat.lt_irrefl 0 hlater
    obtain ⟨rest, hrest⟩ : ∃ rest, v.rescanned = pre ++ i :: rest := by
      rw [hsplit] at hprefix
      rcases List.append_eq_append_iff.1 hprefix with ⟨r, hpre, hr⟩ | ⟨r, hpre, hr⟩
      · cases r with
        | nil =>
          have hlen' := congrArg List.length hr
          have hpos := List.length_pos_iff.2 hpost
          simp only [List.length_cons, List.nil_append] at hlen'
          omega
        | cons x r =>
          obtain ⟨rfl, -⟩ := List.cons.inj hr
          exact ⟨r, hpre⟩
      · have hlen' := congrArg List.length hr
        have hpos := List.length_pos_iff.2 hpost
        simp only [List.length_cons, List.length_append] at hlen'
        omega
    refine .inr (.inr ⟨pre.filter fun j => v.initState a j (d.next j) ≠ .ustate,
      rest.filter fun j => v.initState a j (d.next j) ≠ .ustate, ?_, b, htwo, ?_, fun k hk hbk => ?_⟩)
    · rw [hrest, List.filter_append, List.filter_cons_of_pos (by simpa using hstate)]
    · rw [h.again i hi]
      exact List.mem_of_mem_filter hb
    · obtain ⟨hkpre, hkstate⟩ := List.mem_filter.1 hk
      have hkused : k ∈ v.used d a := mem_used.2 ⟨hsplit ▸ List.mem_append_left _ hkpre,
        of_decide_eq_true hkstate⟩
      rw [h.again k hkused] at hbk
      have hkc : b ∈ v.claims d k := by
        rw [h.claims k hkused]
        exact List.mem_filter.2 ⟨hbk, (List.mem_filter.1 hb).2⟩
      have hpos := List.count_pos_iff.2 (List.mem_flatMap.2 ⟨k, hkpre, hkc⟩)
      refine hdup.1 ?_
      unfold claimCount
      omega

/-- **What is taken back matches** on such a volume. -/
theorem claimsMatch : ClaimsMatch v d a := by
  have hdropped : ∀ is ⊆ v.used d a, is.flatMap (v.dropped d) = is.flatMap (v.refs d) := fun is his =>
    List.flatMap_congr fun i hi => h.dropped_eq (his hi)
  refine ⟨h.marks, fun b _ => ?_, fun b _ => ?_, fun b _ j hj href => ?_, fun i hi ⟨b, hb, htwo⟩ =>
    h.blamed hi hb htwo⟩
  · rw [hdropped _ (List.Subset.refl _), h.count_claims]
  · rw [hdropped _ (List.filter_subset_self _), h.count_claims]
    exact (flatMap_filter _ fun i _ hp => by simpa using hp).ge
  · rw [hdropped _ List.erase_subset, h.count_claims]
    have hperm := (List.perm_cons_erase hj).flatMap_right (v.refs d)
    rw [hperm.count_eq, List.flatMap_cons, List.count_append]
    have hpos := List.count_pos_iff.2 href
    omega

end Settled

/-! ### An inode that is given up -/

/-- The volume of the inode. -/
def dupVolume : Layout := smallLayout

/-- A regular file with some direct pointers. -/
def fileOf (ptrs : List ℕ) : Dinode where
  e2di_mode := 0x81A4
  e2di_size := 1024 * 12
  e2di_size_high := 0
  e2di_dtime := 0
  e2di_nlink := 1
  e2di_nblock := 2 * 12
  direct := ptrs
  indirect := [0, 0, 0]

/-- An inode slot that is not used. -/
def noInode : Dinode := ⟨0, 0, 0, 0, 0, 0, [], []⟩

/-- Two files, read the same each time. -/
def twoFiles (f g : Dinode) : Readings :=
  let dp := fun i => if i = 11 then f else if i = 12 then g else noInode
  ⟨dp, dp, dp⟩

/-- Yes to all. -/
def yesAll : Replies := ⟨fun _ => true, fun _ => true⟩

/-- A file with eleven pointers out of range and then block 50, and a file with block 50. -/
def givenUp : Readings :=
  twoFiles (fileOf ((List.range' 200 11) ++ [50])) (fileOf [50])

theorem dupsOf_le_length (cl l : List ℕ) : dupsOf v cl l ≤ l.length := by
  induction l generalizing cl with
  | nil => exact Nat.le_refl 0
  | cons b l ih =>
    have hrest := ih (cl ++ [b])
    rw [dupsOf_cons, List.length_cons]
    split <;> omega

theorem within_of_length (h : ∀ i ∈ v.inodes, (v.claims d i).length ≤ MAXDUP) : Within v d := by
  intro is i js hsplit
  refine (dupsOf_le_length _ _).trans (h i ?_)
  rw [hsplit]
  exact List.mem_append_right _ (List.mem_cons_self ..)

theorem givenUp_within : Within dupVolume givenUp :=
  within_of_length (by decide +kernel)

/-- **An inode that is given up** is to be cleared, and clearing it takes back a claim of another one. -/
theorem givenUp_wrong : Within dupVolume givenUp ∧ ¬DupsRight dupVolume givenUp yesAll := by
  refine ⟨givenUp_within, fun h => ?_⟩
  have hmarked := h.marked 12 (by decide +kernel) ⟨50, by decide +kernel, by decide +kernel⟩
  revert hmarked
  decide +kernel

/-- Two files that share a block are both found. -/
def sharing : Readings := twoFiles (fileOf [50, 51]) (fileOf [52, 50])

theorem sharing_settled : Settled dupVolume sharing yesAll :=
  ⟨fun _ _ => rfl, fun _ _ => rfl, by decide +kernel, by decide +kernel⟩

theorem sharing_right : DupsRight dupVolume sharing yesAll :=
  (dups_iff dupVolume sharing yesAll (within_of_length (by decide +kernel))).2 sharing_settled.claimsMatch

end Ext2fs.Fsck
