import Ext2fs.Fsck.DupCounts

/-!
# The claims over the passes

The counts of `DupCounts` are carried through the passes: `pass1` adds the claims of every inode that is
not given up, `pass1b` blames the first inode that references a block of the list, and every clearing
takes back what the inode is read to reference then.

* `checkinode_spec`, `pass1_spec` — the first walk;
* `rescan_spec`, `pass1b_spec` — the second one;
* `clearAll_counted` — clearing;
* **`dups_iff`** — the volumes on which the claims are kept right.
-/

namespace Ext2fs.Fsck

open DupList

section

variable (v : Layout) (d : Readings) (a : Replies)

/-- The blocks of an inode are looked at in `pass1`. -/
def Layout.walked (i : ℕ) : Bool := !decide (d.next i).unallocated && v.typeOk (d.next i)

/-- The claims of an inode. -/
def Layout.claims (i : ℕ) : List ℕ :=
  if v.walked d i then claimsOf v MAXBAD (blockRefs v (d.next i)) else []

/-- The claims of all inodes. -/
def Layout.allClaims : List ℕ := v.inodes.flatMap (v.claims d)

/-- No inode has more than `MAXDUP` blocks that are claimed before. -/
def Within : Prop :=
  ∀ is i js, v.inodes = is ++ i :: js → dupsOf v (is.flatMap (v.claims d)) (v.claims d i) ≤ MAXDUP

/-- What `blkerror` makes of a state. -/
def clearState : InoState → InoState
  | .fstate => .fclear
  | .dstate => .dclear
  | s => s

/-- The state of an inode after `pass1`, when it comes after the claims `cl`. -/
def Layout.stateAfter (cl : List ℕ) (i : ℕ) : InoState :=
  if v.walked d i = true ∧ Marks v cl MAXBAD (blockRefs v (d.next i)) then
    clearState (v.initState a i (d.next i))
  else v.initState a i (d.next i)

end

variable {v : Layout} {d : Readings} {a : Replies} {U : Finset ℕ} {st : Blocks} {cl : List ℕ}
  {i j b : ℕ}

theorem blkerror_update (i : ℕ) (s : ℕ → InoState) (x : InoState) :
    blkerror i (Function.update s i x) = Function.update s i (clearState x) := by
  unfold blkerror
  rw [Function.update_self, Function.update_idem]
  cases x <;> rfl

theorem blkerror_self (i : ℕ) (s : ℕ → InoState) : blkerror i s i = clearState (s i) := by
  unfold blkerror
  rw [Function.update_self]
  cases s i <;> rfl

theorem blkerror_of_ne (h : j ≠ i) (s : ℕ → InoState) : blkerror i s j = s j :=
  Function.update_of_ne h ..

theorem walked_iff : v.walked d i = true ↔ ¬((d.next i).unallocated ∨ v.typeOk (d.next i) = false) := by
  unfold Layout.walked
  simp

/-! ### The first walk -/

/-- **One inode** of the first walk. -/
theorem checkinode_spec (h : Claimed v U cl st) (hdup : dupsOf v cl (v.claims d i) ≤ MAXDUP)
    (hU : ∀ b ∈ blockRefs v (d.next i), v.inRange b = true → b ∈ U) :
    Claimed v U (cl ++ v.claims d i) (checkinode v a i (d.next i) st) ∧
      (checkinode v a i (d.next i) st).statemap =
        Function.update st.statemap i (v.stateAfter d a cl i) := by
  unfold checkinode Layout.stateAfter Layout.claims
  unfold Layout.claims at hdup
  dsimp only
  by_cases hw : v.walked d i = true
  · rw [if_pos hw] at hdup ⊢
    rw [if_neg (walked_iff.1 hw)]
    let st₁ : Blocks := { st with
      statemap := Function.update st.statemap i (v.initState a i (d.next i))
      badblk := 0
      dupblk := 0
      id_entryno := 0 }
    have hrun := ckinode_snd v (pass1check_answers i) (d.next i) st₁
    have hk : MAXBAD + st₁.badblk = MAXBAD := rfl
    have hdup₁ : st₁.dupblk + dupsOf v cl (claimsOf v MAXBAD (blockRefs v (d.next i))) ≤ MAXDUP := by
      rwa [show st₁.dupblk = 0 from rfl, Nat.zero_add]
    obtain ⟨hcl, hst⟩ := claim_spec i (blockRefs v (d.next i)) hk hdup₁ hU
      ⟨h.counted.of_eq rfl (fun _ => rfl) rfl, h.twoPart⟩
    rw [← hrun] at hcl hst
    have hstate : (ckinode v (pass1check v i) (d.next i) st₁).2.statemap =
        Function.update st.statemap i (if v.walked d i = true ∧
            Marks v cl MAXBAD (blockRefs v (d.next i)) then clearState (v.initState a i (d.next i))
          else v.initState a i (d.next i)) := by
      rw [hst]
      by_cases hm : Marks v cl MAXBAD (blockRefs v (d.next i))
      · rw [if_pos hm, if_pos ⟨hw, hm⟩]
        exact blkerror_update ..
      · rw [if_neg hm, if_neg fun hc => hm hc.2]
    by_cases hc : (ckinode v (pass1check v i) (d.next i) st₁).2.nblock i ≠
        (ckinode v (pass1check v i) (d.next i) st₁).2.id_entryno * btodb v.bsize ∧ a.correct i = true
    · rw [if_pos hc]
      exact ⟨⟨hcl.counted.of_eq rfl (fun _ => rfl) rfl, hcl.twoPart⟩, hstate⟩
    · rw [if_neg hc]
      exact ⟨⟨hcl.counted.of_eq rfl (fun _ => rfl) rfl, hcl.twoPart⟩, hstate⟩
  · rw [if_neg hw, List.append_nil, if_pos (not_not.1 (walked_iff.not.1 hw)),
      if_neg fun hc : v.walked d i = true ∧ _ => hw hc.1]
    exact ⟨⟨h.counted.of_eq rfl (fun _ => rfl) rfl, h.twoPart⟩, rfl⟩

/-- **The first walk** from some inode on. -/
theorem checkinodes_spec {is : List ℕ} (hnodup : is.Nodup)
    (hdup : ∀ pre i post, is = pre ++ i :: post →
      dupsOf v (cl ++ pre.flatMap (v.claims d)) (v.claims d i) ≤ MAXDUP)
    (hU : ∀ i ∈ is, ∀ b ∈ blockRefs v (d.next i), v.inRange b = true → b ∈ U)
    (h : Claimed v U cl st) :
    Claimed v U (cl ++ is.flatMap (v.claims d))
        (is.foldl (fun st i => checkinode v a i (d.next i) st) st) ∧
      (∀ j, j ∉ is → (is.foldl (fun st i => checkinode v a i (d.next i) st) st).statemap j =
        st.statemap j) ∧
      ∀ pre i post, is = pre ++ i :: post →
        (is.foldl (fun st i => checkinode v a i (d.next i) st) st).statemap i =
          v.stateAfter d a (cl ++ pre.flatMap (v.claims d)) i := by
  induction is generalizing cl st with
  | nil =>
    rw [List.flatMap_nil, List.append_nil]
    exact ⟨h, fun _ _ => rfl, fun pre i post hnil => by simp at hnil⟩
  | cons i is ih =>
    have hfirst := hdup [] i is rfl
    rw [List.flatMap_nil, List.append_nil] at hfirst
    obtain ⟨hcl, hst⟩ := checkinode_spec (a := a) h hfirst (hU i (List.mem_cons_self ..))
    obtain ⟨hi, htail⟩ := List.nodup_cons.1 hnodup
    have hrest : ∀ pre j post, is = pre ++ j :: post →
        dupsOf v (cl ++ v.claims d i ++ pre.flatMap (v.claims d)) (v.claims d j) ≤ MAXDUP := by
      intro pre j post heq
      have hj := hdup (i :: pre) j post (by rw [heq]; rfl)
      rwa [List.flatMap_cons, ← List.append_assoc] at hj
    obtain ⟨hall, hother, hstate⟩ := ih htail hrest (fun j hj => hU j (List.mem_cons_of_mem _ hj)) hcl
    rw [List.flatMap_cons, ← List.append_assoc, List.foldl_cons]
    refine ⟨hall, fun j hj => ?_, fun pre j post heq => ?_⟩
    · rw [List.mem_cons, not_or] at hj
      rw [hother j hj.2, hst, Function.update_of_ne hj.1]
    · cases pre with
      | nil =>
        obtain ⟨rfl, -⟩ := List.cons.inj heq
        rw [hother i hi, hst, Function.update_self, List.flatMap_nil, List.append_nil]
      | cons k pre =>
        obtain ⟨rfl, hrest⟩ := List.cons.inj heq
        rw [hstate pre j post hrest, List.flatMap_cons, ← List.append_assoc]

theorem inodes_nodup (v : Layout) : v.inodes.Nodup := (List.nodup_range' ..).filter _

/-- What the passes begin with. -/
theorem start_claimed (v : Layout) (d : Readings) (U : Finset ℕ) : Claimed v U [] (v.start d) := by
  refine ⟨⟨fun b => ?_, fun b => ?_, ?_⟩, [], ?_⟩
  · show decide (b ∈ v.marks) = true ↔ 0 < (if b ∈ v.marks then 1 else 0) + 0
    split <;> simp [*]
  · show 0 = (if b ∈ v.marks then 1 else 0) + 0 - 1
    split <;> rfl
  · show (0 : ℤ) = ∑ b ∈ U, _
    refine (Finset.sum_eq_zero fun b _ => ?_).symm
    show ((if 0 < (if b ∈ v.marks then 1 else 0) + 0 then 1 else 0) - _ : ℤ) = 0
    split <;> simp [*]
  · exact ⟨List.nodup_nil, fun x => Iff.rfl, fun x => rfl⟩

/-- **`pass1`** adds the claims of all inodes. -/
theorem pass1_spec (hw : Within v d)
    (hU : ∀ i ∈ v.inodes, ∀ b ∈ blockRefs v (d.next i), v.inRange b = true → b ∈ U) :
    Claimed v U (v.allClaims d) (pass1 v d a) ∧
      ∀ pre i post, v.inodes = pre ++ i :: post →
        (pass1 v d a).statemap i = v.stateAfter d a (pre.flatMap (v.claims d)) i := by
  have hdup : ∀ pre i post, v.inodes = pre ++ i :: post →
      dupsOf v ([] ++ pre.flatMap (v.claims d)) (v.claims d i) ≤ MAXDUP := hw
  obtain ⟨hcl, -, hst⟩ := checkinodes_spec (a := a) (inodes_nodup v) hdup hU (start_claimed v d U)
  exact ⟨hcl, hst⟩

/-! ### The second walk -/

/-- One inode of `is` is the first to be handed a block of `u`. -/
def FirstCaller (u : List ℕ) (l : ℕ → List ℕ) (is : List ℕ) (i : ℕ) : Prop :=
  ∃ pre post, is = pre ++ i :: post ∧ ∃ b ∈ u, b ∈ l i ∧ ∀ k ∈ pre, b ∉ l k

/-- What the second walk has kept of the list it began with, and the places it has not passed. -/
structure Rescanned (dups u : List ℕ) (st : Rescan) : Prop where
  perm : (st.passed ++ st.unpassed).Perm dups
  nodup : st.unpassed.Nodup
  unpassed : ∀ b, b ∈ st.unpassed ↔ b ∈ u

variable {dups u l : List ℕ} {rs : Rescan}

/-- One call of `pass1bcheck`. -/
theorem pass1bcheck_spec (i b : ℕ) (h : Rescanned dups u rs) :
    Rescanned dups (u.filter (· ≠ b)) (pass1bcheck v i b rs).2 ∧
      ((pass1bcheck v i b rs).1 = .stop ↔ (pass1bcheck v i b rs).2.unpassed = []) ∧
      (pass1bcheck v i b rs).2.statemap =
        if b ∈ u then blkerror i rs.statemap else rs.statemap := by
  obtain ⟨hperm, hcount⟩ := seek_perm b [] rs.unpassed
  rw [List.nil_append] at hperm
  refine ⟨⟨?_, ?_, fun x => ?_⟩, ?_, ?_⟩
  · show ((rs.passed ++ List.replicate (seek b [] rs.unpassed).2 b) ++ (seek b [] rs.unpassed).1).Perm _
    rw [List.append_assoc]
    exact ((seek_all b rs.unpassed).append_left _).trans h.perm
  · exact hperm.nodup_iff.2 (h.nodup.filter _)
  · rw [show x ∈ (pass1bcheck v i b rs).2.unpassed ↔ _ from hperm.mem_iff, List.mem_filter,
      List.mem_filter, h.unpassed]
  · show (if (seek b [] rs.unpassed).1 = [] then Ret.stop
      else if v.chkrange b 1 then .skip else .keepon) = .stop ↔ (seek b [] rs.unpassed).1 = []
    split
    next hnil => exact iff_of_true rfl hnil
    next hne =>
      refine iff_of_false ?_ hne
      split <;> exact Ret.noConfusion
  · show (if (seek b [] rs.unpassed).2 = 0 then rs.statemap else blkerror i rs.statemap) = _
    rw [hcount]
    by_cases hb : b ∈ u
    · have hpos := List.count_pos_iff.2 ((h.unpassed b).2 hb)
      rw [if_pos hb, if_neg (Nat.ne_of_gt hpos)]
    · rw [if_neg hb, if_pos (List.count_eq_zero_of_not_mem ((h.unpassed b).not.2 hb))]

theorem pass1bcheck_answers (i : ℕ) : Answers v (pass1bcheck v i) := by
  intro b st
  show (if (seek b [] st.unpassed).1 = [] then Ret.stop
      else if v.chkrange b 1 then .skip else .keepon) = .stop ∨
    (if (seek b [] st.unpassed).1 = [] then Ret.stop
      else if v.chkrange b 1 then .skip else .keepon) = _
  by_cases hnil : (seek b [] st.unpassed).1 = []
  · rw [if_pos hnil]
    exact .inl rfl
  · rw [if_neg hnil]
    refine .inr ?_
    by_cases hin : v.inRange b = true
    · rw [if_pos hin, if_neg (inRange_iff.1 hin)]
    · rw [if_neg hin, if_pos (out_of_range hin)]

/-- **The calls of `pass1bcheck` for one inode.** -/
theorem recall_spec (i : ℕ) (l : List ℕ) {u : List ℕ} {rs : Rescan} (h : Rescanned dups u rs) :
    Rescanned dups (u.filter (· ∉ l)) (callAll (pass1bcheck v i) l rs).2 ∧
      ((callAll (pass1bcheck v i) l rs).1 = true → (callAll (pass1bcheck v i) l rs).2.unpassed = []) ∧
      (callAll (pass1bcheck v i) l rs).2.statemap =
        if ∃ b ∈ u, b ∈ l then blkerror i rs.statemap else rs.statemap := by
  induction l generalizing u rs with
  | nil =>
    rw [if_neg (by simp)]
    exact ⟨⟨h.perm, h.nodup, fun b => by simp [callAll, h.unpassed]⟩, fun hc => Bool.noConfusion hc, rfl⟩
  | cons b l ih =>
    obtain ⟨hstep, hstop, hst⟩ := pass1bcheck_spec (v := v) i b h
    have hmem : ∀ x, x ∈ (u.filter (· ≠ b)).filter (· ∉ l) ↔ x ∈ u.filter (· ∉ b :: l) := by
      intro x
      simp only [List.mem_filter, List.mem_cons]
      grind
    by_cases hend : (pass1bcheck v i b rs).1 = .stop
    · have hnil := hstop.1 hend
      have hnone : ∀ x, x ∈ u → x = b := by
        intro x hx
        by_contra hne
        have hin := (hstep.unpassed x).2 (List.mem_filter.2 ⟨hx, by simpa using hne⟩)
        rw [hnil] at hin
        exact List.not_mem_nil hin
      rw [callAll_stop l hend]
      refine ⟨⟨hstep.perm, hstep.nodup, fun x => ?_⟩, fun _ => hnil, hst.trans ?_⟩
      · rw [hnil]
        refine iff_of_false List.not_mem_nil fun hx => ?_
        obtain ⟨hxu, hxl⟩ := List.mem_filter.1 hx
        rw [hnone x hxu] at hxl
        simp at hxl
      · refine if_congr ⟨fun hb => ⟨b, hb, List.mem_cons_self ..⟩, ?_⟩ rfl rfl
        rintro ⟨x, hx, -⟩
        exact hnone x hx ▸ hx
    · obtain ⟨hrun, hdone, hstate⟩ := ih hstep
      rw [callAll_go l hend]
      refine ⟨⟨hrun.perm, hrun.nodup, fun x => (hrun.unpassed x).trans (hmem x)⟩, hdone, ?_⟩
      rw [hstate, hst]
      have hex : (∃ x ∈ u, x ∈ b :: l) ↔ b ∈ u ∨ ∃ x ∈ u.filter (· ≠ b), x ∈ l := by
        simp only [List.mem_filter, List.mem_cons]
        grind
      rw [if_congr hex rfl rfl]
      by_cases hb : b ∈ u
      · rw [if_pos hb, blkerror_blkerror, ite_self, if_pos (.inl hb)]
      · rw [if_neg hb]
        exact if_congr ⟨.inr, fun hc => hc.resolve_left hb⟩ rfl rfl

theorem firstCaller_cons {l : ℕ → List ℕ} {is : List ℕ} :
    FirstCaller u l (i :: is) j ↔
      (j = i ∧ ∃ b ∈ u, b ∈ l i) ∨ FirstCaller (u.filter (· ∉ l i)) l is j := by
  constructor
  · rintro ⟨pre, post, heq, b, hb, hbj, hpre⟩
    cases pre with
    | nil =>
      obtain ⟨rfl, -⟩ := List.cons.inj heq
      exact .inl ⟨rfl, b, hb, hbj⟩
    | cons k pre =>
      obtain ⟨rfl, rfl⟩ := List.cons.inj heq
      refine .inr ⟨pre, post, rfl, b, ?_, hbj, fun k hk => hpre k (List.mem_cons_of_mem _ hk)⟩
      exact List.mem_filter.2 ⟨hb, by simpa using hpre _ (List.mem_cons_self ..)⟩
  · rintro (⟨rfl, b, hb, hbi⟩ | ⟨pre, post, rfl, b, hb, hbj, hpre⟩)
    · exact ⟨[], is, rfl, b, hb, hbi, fun k hk => absurd hk List.not_mem_nil⟩
    · obtain ⟨hbu, hbi⟩ := List.mem_filter.1 hb
      refine ⟨i :: pre, post, rfl, b, hbu, hbj, fun k hk => ?_⟩
      rcases List.mem_cons.1 hk with rfl | hk
      · simpa using hbi
      · exact hpre k hk

theorem firstCaller_mem {l : ℕ → List ℕ} {is : List ℕ} (h : FirstCaller u l is i) : i ∈ is := by
  obtain ⟨pre, post, rfl, -⟩ := h
  exact List.mem_append_right _ (List.mem_cons_self ..)

theorem not_firstCaller {l : ℕ → List ℕ} {is : List ℕ} (h : ∀ b, b ∉ u) : ¬FirstCaller u l is i := by
  rintro ⟨-, -, -, b, hb, -⟩
  exact h b hb

/-- The states after a walk over `us`: the first inodes that are handed a block of `u` are blamed. -/
def Blames (u : List ℕ) (l : ℕ → List ℕ) (us : List ℕ) (rs rs' : Rescan) : Prop :=
  ∀ j, (FirstCaller u l us j → rs'.statemap j = clearState (rs.statemap j)) ∧
    (¬FirstCaller u l us j → rs'.statemap j = rs.statemap j)

/-- The walk over one inode. -/
theorem rescan_one (dp : ℕ → Dinode) (i : ℕ) (h : Rescanned dups u rs) :
    let r := ckinode v (pass1bcheck v i) (dp i) rs
    Rescanned dups (u.filter (· ∉ blockRefs v (dp i))) r.2 ∧ (r.1 = .stop → r.2.unpassed = []) ∧
      r.2.statemap = if ∃ b ∈ u, b ∈ blockRefs v (dp i) then blkerror i rs.statemap
        else rs.statemap := by
  intro r
  have hstate : r.2 = _ := ckinode_snd v (pass1bcheck_answers i) (dp i) rs
  have hflag : r.1 = .stop ↔ _ := ckinode_stop v (pass1bcheck_answers i) (dp i) rs
  obtain ⟨hres, hdone, hst⟩ := recall_spec (v := v) i (blockRefs v (dp i)) h
  rw [hflag, hstate]
  exact ⟨hres, hdone, hst⟩

/-- **The loop of `pass1b`** blames the first inode that is handed a block of the list. -/
theorem rescan_spec (dp : ℕ → Dinode) {is : List ℕ} (hnodup : is.Nodup) {u : List ℕ} {rs : Rescan}
    (h : Rescanned dups u rs) :
    (∃ w, Rescanned dups w (rescan v dp is rs)) ∧
      Blames u (fun i => blockRefs v (dp i)) (is.filter (rs.statemap · ≠ .ustate)) rs
        (rescan v dp is rs) := by
  induction is generalizing u rs with
  | nil => exact ⟨⟨u, h⟩, fun j => ⟨fun hc => absurd (firstCaller_mem hc) List.not_mem_nil, fun _ => rfl⟩⟩
  | cons i is ih =>
    obtain ⟨hi, htail⟩ := List.nodup_cons.1 hnodup
    by_cases hfree : rs.statemap i = .ustate
    · have hnext : rescan v dp (i :: is) rs = rescan v dp is rs := if_pos hfree
      rw [hnext, List.filter_cons_of_neg (by simpa using hfree)]
      exact ih htail h
    have hnext : rescan v dp (i :: is) rs = _ := if_neg hfree
    rw [hnext, List.filter_cons_of_pos (by simpa using hfree)]
    obtain ⟨hres, hdone, hst⟩ := rescan_one (v := v) dp i h
    generalize ckinode v (pass1bcheck v i) (dp i) rs = r at hres hdone hst ⊢
    have hown : ∀ j, j ≠ i → r.2.statemap j = rs.statemap j := by
      intro j hj
      rw [hst]
      split
      · exact blkerror_of_ne hj _
      · rfl
    have hfilter : is.filter (r.2.statemap · ≠ .ustate) = is.filter (rs.statemap · ≠ .ustate) := by
      apply List.filter_congr
      intro j hj
      rw [hown j (ne_of_mem_of_not_mem hj hi)]
    -- the rest of the loop, or nothing when all places have been passed
    have hrest : ∀ t, t = (if r.1 = .stop then r.2 else rescan v dp is r.2) →
        (∃ w, Rescanned dups w t) ∧ Blames (u.filter (· ∉ blockRefs v (dp i)))
          (fun i => blockRefs v (dp i)) (is.filter (rs.statemap · ≠ .ustate)) r.2 t := by
      rintro t rfl
      by_cases hstop : r.1 = .stop
      · rw [if_pos hstop]
        have hnil := hdone hstop
        refine ⟨⟨_, hres⟩, fun j => ⟨fun hc => ?_, fun _ => rfl⟩⟩
        refine absurd hc (not_firstCaller fun b hb => ?_)
        have hin := (hres.unpassed b).2 hb
        rw [hnil] at hin
        exact List.not_mem_nil hin
      · rw [if_neg hstop, ← hfilter]
        exact ih htail hres
    obtain ⟨hkept, hblames⟩ := hrest _ rfl
    refine ⟨hkept, fun j => ?_⟩
    obtain ⟨hyes, hno⟩ := hblames j
    rw [firstCaller_cons]
    by_cases hj : j = i
    · have hnot : ¬FirstCaller (u.filter (· ∉ blockRefs v (dp i))) (fun i => blockRefs v (dp i))
          (is.filter (rs.statemap · ≠ .ustate)) j :=
        fun hc => hi (hj ▸ List.mem_of_mem_filter (firstCaller_mem hc))
      have hself : ∀ s, (if ∃ b ∈ u, b ∈ blockRefs v (dp i) then blkerror i rs.statemap
          else rs.statemap) j = s → r.2.statemap j = s := fun s hs => by rw [hst, hs]
      refine ⟨fun hc => (hno hnot).trans (hself _ ?_), fun hc => (hno hnot).trans (hself _ ?_)⟩
      · rw [if_pos (hc.resolve_right hnot).2, hj]
        exact blkerror_self ..
      · rw [if_neg fun hex => hc (.inl ⟨hj, hex⟩)]
    · rw [← hown j hj]
      exact ⟨fun hc => hyes (hc.resolve_left fun h => hj h.1), fun hc => hno fun h => hc (.inr h)⟩

/-- **`pass1b`** keeps the claims, and blames the first inodes that are handed a block of the list. -/
theorem pass1b_spec {found : List ℕ} (h : Counted v U (claimCount v cl) st)
    (htwo : TwoPart found st.dups) :
    Counted v U (claimCount v cl) (pass1b v d st) ∧ ∀ j,
      (FirstCaller st.dups.first (fun i => blockRefs v (d.again i))
          (v.rescanned.filter (st.statemap · ≠ .ustate)) j →
        (pass1b v d st).statemap j = clearState (st.statemap j)) ∧
      (¬FirstCaller st.dups.first (fun i => blockRefs v (d.again i))
          (v.rescanned.filter (st.statemap · ≠ .ustate)) j →
        (pass1b v d st).statemap j = st.statemap j) := by
  unfold pass1b
  by_cases hnil : st.dups.first = []
  · rw [if_pos hnil, hnil]
    exact ⟨h, fun j => ⟨fun hc => absurd hc (not_firstCaller fun b => List.not_mem_nil), fun _ => rfl⟩⟩
  · rw [if_neg hnil]
    have hbegin : Rescanned st.dups.first st.dups.first ⟨[], st.dups.first, st.statemap⟩ :=
      ⟨List.Perm.refl _, htwo.single, fun b => Iff.rfl⟩
    have hnodup : v.rescanned.Nodup := List.nodup_range.filter _
    obtain ⟨⟨w, hkept⟩, hblames⟩ := rescan_spec (v := v) d.again hnodup hbegin
    exact ⟨h.of_eq rfl (fun b => (hkept.perm.append_right _).count_eq b) rfl, hblames⟩

/-! ### Clearing -/

/-- **Clearing inodes** takes their claims back. -/
theorem clearAll_counted (is : List ℕ) {cnt : ℕ → ℕ}
    (hU : ∀ i ∈ is, ∀ b ∈ blockRefs v (d.last i), v.inRange b = true → b ∈ U)
    (h : Counted v U cnt st) :
    Counted v U (fun b => cnt b - (is.flatMap (v.dropped d)).count b) (clearAll v d is st) := by
  induction is generalizing cnt st with
  | nil => exact h
  | cons i is ih =>
    have hrun := ckinode_snd v pass4check_answers (d.last i) st
    have hone := drop_spec (blockRefs v (d.last i)) (hU i (List.mem_cons_self ..)) h
    rw [← hrun] at hone
    have hclri : Counted v U _ (clri v d st i) := hone.of_eq rfl (fun _ => rfl) rfl
    have hall := ih (fun j hj => hU j (List.mem_cons_of_mem _ hj)) hclri
    show Counted v U _ (clearAll v d is (clri v d st i))
    convert hall using 2 with b
    rw [List.flatMap_cons, List.count_append, ← Nat.sub_sub]
    rfl

end Ext2fs.Fsck
