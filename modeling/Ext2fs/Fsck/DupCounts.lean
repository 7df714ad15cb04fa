import Ext2fs.Fsck.Dups

/-!
# What the map and the list of duplicates count

The bit of a block and its places in `duplist` are one count of the claims on the block: the bit stands
for the first claim and each place for a further one.  `pass1check` adds a claim, `pass4check` takes one
back, and `pass1b` leaves the counts as they are.

* `Counted` — the map, the list and `n_blks` stand for given counts;
* `pass1check_counted`, `pass4check_counted` — one call;
* `claim_spec`, `drop_spec` — the calls for one inode.
-/

namespace Ext2fs.Fsck

open DupList

variable (v : Layout)

/-- The variables of the passes stand for `cnt b` claims on each block, those that `marks` begins with
included; only blocks of `U` have been touched. -/
structure Counted (U : Finset ℕ) (cnt : ℕ → ℕ) (st : Blocks) : Prop where
  map : ∀ b, st.blockmap b = true ↔ 0 < cnt b
  dups : ∀ b, st.dups.all.count b = cnt b - 1
  n_blks : st.n_blks =
    ∑ b ∈ U, ((if 0 < cnt b then 1 else 0) - (if b ∈ v.marks then 1 else 0) : ℤ)

variable {v} {U : Finset ℕ} {cnt : ℕ → ℕ} {st : Blocks} {i b : ℕ}

/-- A sum in which one term changes. -/
theorem sum_update {c : ℕ} (hb : b ∈ U) (cnt : ℕ → ℕ) :
    ∑ x ∈ U, ((if 0 < Function.update cnt b c x then 1 else 0) - (if x ∈ v.marks then 1 else 0) : ℤ) =
      ∑ x ∈ U, ((if 0 < cnt x then 1 else 0) - (if x ∈ v.marks then 1 else 0) : ℤ) +
        ((if 0 < c then 1 else 0) - (if 0 < cnt b then 1 else 0)) := by
  rw [← Finset.add_sum_erase U _ hb, ← Finset.add_sum_erase U _ hb, Function.update_self]
  have hrest : ∀ x ∈ U.erase b, Function.update cnt b c x = cnt x := fun x hx =>
    Function.update_of_ne (Finset.ne_of_mem_erase hx) ..
  rw [Finset.sum_congr rfl fun x hx => by rw [hrest x hx]]
  ring

/-- The counts do not depend on the other variables. -/
theorem Counted.of_eq {st' : Blocks} (h : Counted v U cnt st) (hmap : st'.blockmap = st.blockmap)
    (hdups : ∀ b, st'.dups.all.count b = st.dups.all.count b) (hn : st'.n_blks = st.n_blks) :
    Counted v U cnt st' :=
  ⟨fun b => by rw [hmap, h.map], fun b => by rw [hdups, h.dups], hn.trans h.n_blks⟩

/-! ### One call -/

/-- The bit of a free block is set. -/
theorem Counted.claim_free (h : Counted v U cnt st) (hb : b ∈ U) (hfree : st.blockmap b = false) :
    Counted v U (Function.update cnt b (cnt b + 1)) { st with
      n_blks := st.n_blks + 1
      blockmap := Function.update st.blockmap b true
      id_entryno := st.id_entryno + 1 } := by
  have hzero : cnt b = 0 := by
    have hnot := (h.map b).not.1 (by simpa using hfree)
    omega
  refine ⟨fun x => ?_, fun x => ?_, ?_⟩
  · show Function.update st.blockmap b true x = true ↔ _
    by_cases hx : x = b
    · rw [hx, Function.update_self, Function.update_self]
      exact iff_of_true rfl (Nat.succ_pos _)
    · rw [Function.update_of_ne hx, Function.update_of_ne hx]
      exact h.map x
  · show st.dups.all.count x = _
    by_cases hx : x = b
    · rw [hx, Function.update_self, h.dups, hzero]
    · rw [Function.update_of_ne hx, h.dups]
  · show st.n_blks + 1 = _
    rw [sum_update hb, h.n_blks, hzero]
    rfl

/-- A taken block is claimed again. -/
theorem Counted.claim_taken (h : Counted v U cnt st) (hb : b ∈ U) (htaken : st.blockmap b = true)
    {d' : DupList ℕ} (hd : ∀ x, d'.all.count x = st.dups.all.count x + if x = b then 1 else 0) :
    Counted v U (Function.update cnt b (cnt b + 1)) { st with
      dupblk := st.dupblk + 1
      dups := d'
      id_entryno := st.id_entryno + 1 } := by
  have hpos := (h.map b).1 htaken
  refine ⟨fun x => ?_, fun x => ?_, ?_⟩
  · show st.blockmap x = true ↔ _
    by_cases hx : x = b
    · rw [hx, Function.update_self]
      exact iff_of_true htaken (Nat.succ_pos _)
    · rw [Function.update_of_ne hx]
      exact h.map x
  · show d'.all.count x = _
    rw [hd, h.dups]
    by_cases hx : x = b
    · rw [hx, if_pos rfl, Function.update_self]
      omega
    · rw [if_neg hx, Function.update_of_ne hx]
      omega
  · show st.n_blks = _
    rw [sum_update hb, h.n_blks, if_pos (Nat.succ_pos _), if_pos hpos]
    ring

/-- **A claim is taken back.** -/
theorem pass4check_counted (h : Counted v U cnt st) (hb : b ∈ U) (hin : v.inRange b = true) :
    Counted v U (Function.update cnt b (cnt b - 1)) (pass4check v b st).2 := by
  have hchk : ¬v.chkrange b 1 = true := by
    unfold Layout.inRange at hin
    simpa using hin
  unfold pass4check
  rw [if_neg hchk]
  by_cases hmap : st.blockmap b = true
  · rw [if_pos hmap]
    have hpos := (h.map b).1 hmap
    by_cases hmem : b ∈ st.dups.all
    · have htwo : 1 < cnt b := by
        have hcount := h.dups b
        have hone := List.count_pos_iff.2 hmem
        omega
      rw [if_pos hmem]
      refine ⟨fun x => ?_, fun x => ?_, ?_⟩
      · show st.blockmap x = true ↔ _
        by_cases hx : x = b
        · rw [hx, Function.update_self]
          exact iff_of_true hmap (by omega)
        · rw [Function.update_of_ne hx]
          exact h.map x
      · have htake : (take b st.dups.all ++ ([] : List ℕ)).count x =
            st.dups.all.count x - if x = b then 1 else 0 := by
          rw [List.append_nil, count_take hmem]
        refine htake.trans ?_
        rw [h.dups]
        by_cases hx : x = b
        · rw [hx, if_pos rfl, Function.update_self]
        · rw [if_neg hx, Function.update_of_ne hx, Nat.sub_zero]
      · show st.n_blks = _
        rw [sum_update hb, h.n_blks, if_pos hpos, if_pos (by omega)]
        ring
    · have hone : cnt b = 1 := by
        have hcount := h.dups b
        have hzero := List.count_eq_zero_of_not_mem hmem
        omega
      rw [if_neg hmem]
      refine ⟨fun x => ?_, fun x => ?_, ?_⟩
      · show Function.update st.blockmap b false x = true ↔ _
        by_cases hx : x = b
        · rw [hx, Function.update_self, Function.update_self, hone]
          exact iff_of_false Bool.false_ne_true (Nat.lt_irrefl 0)
        · rw [Function.update_of_ne hx, Function.update_of_ne hx]
          exact h.map x
      · show st.dups.all.count x = _
        by_cases hx : x = b
        · rw [hx, Function.update_self, h.dups, hone]
        · rw [Function.update_of_ne hx, h.dups]
      · show st.n_blks - 1 = _
        rw [sum_update hb, h.n_blks, hone]
        rfl
  · rw [if_neg hmap]
    have hzero : cnt b = 0 := by
      have hnot := (h.map b).not.1 hmap
      omega
    have hsame : cnt b - 1 = cnt b := by omega
    rw [hsame, Function.update_eq_self]
    exact h

/-! ### The calls for one inode -/

section

variable (v : Layout)

/-- The claims that the passes begin with, and one for each number of a list. -/
def claimCount (cl : List ℕ) (b : ℕ) : ℕ := (if b ∈ v.marks then 1 else 0) + cl.count b

/-- The numbers that become claims before an inode is given up: it may have `k` numbers that are out of
range. -/
def claimsOf : ℕ → List ℕ → List ℕ
  | _, [] => []
  | 0, b :: l => if v.inRange b then b :: claimsOf 0 l else []
  | k + 1, b :: l => if v.inRange b then b :: claimsOf (k + 1) l else claimsOf k l

/-- How many of the numbers are claimed already when their turn comes, after the claims `cl`. -/
def dupsOf : List ℕ → List ℕ → ℕ
  | _, [] => 0
  | cl, b :: l => (if 0 < claimCount v cl b then 1 else 0) + dupsOf (cl ++ [b]) l

/-- After the claims `cl`. -/
structure Claimed (U : Finset ℕ) (cl : List ℕ) (st : Blocks) : Prop where
  counted : Counted v U (claimCount v cl) st
  twoPart : ∃ found, TwoPart found st.dups

/-- Claiming the numbers `l` of an inode marks it. -/
def Marks (cl : List ℕ) (k : ℕ) (l : List ℕ) : Prop :=
  (∃ b ∈ l, v.inRange b = false) ∨ 0 < dupsOf v cl (claimsOf v k l)

instance (cl : List ℕ) (k : ℕ) (l : List ℕ) : Decidable (Marks v cl k l) :=
  inferInstanceAs (Decidable (_ ∨ _))

end

theorem claimCount_snoc (cl : List ℕ) (b : ℕ) :
    Function.update (claimCount v cl) b (claimCount v cl b + 1) = claimCount v (cl ++ [b]) := by
  funext x
  unfold claimCount
  rw [List.count_append, List.count_singleton]
  by_cases hx : x = b
  · rw [hx, Function.update_self, beq_self_eq_true, if_pos rfl, Nat.add_assoc]
  · have hne : ¬(b == x) = true := by simpa using Ne.symm hx
    rw [Function.update_of_ne hx, if_neg hne]
    rfl

@[simp] theorem blkerror_blkerror (i : ℕ) (s : ℕ → InoState) :
    blkerror i (blkerror i s) = blkerror i s := by
  unfold blkerror
  rw [Function.update_self, Function.update_idem]
  congr 1
  cases s i <;> rfl

theorem inRange_iff : v.inRange b = true ↔ ¬v.chkrange b 1 = true := by
  unfold Layout.inRange
  simp

theorem pass1check_answers (i : ℕ) : Answers v (pass1check v i) := by
  intro b st
  unfold pass1check
  by_cases hin : v.inRange b = true
  · rw [if_neg (inRange_iff.1 hin), if_pos hin]
    split
    · exact .inr rfl
    · dsimp only
      split
      · exact .inl rfl
      · exact .inr rfl
  · have hout : v.chkrange b 1 = true := by
      by_contra h
      exact hin (inRange_iff.2 h)
    rw [if_pos hout, if_neg hin]
    dsimp only
    split
    · exact .inl rfl
    · exact .inr rfl

theorem insert_count {found : List ℕ} (h : TwoPart found st.dups) (b x : ℕ) :
    (st.dups.insert b).all.count x = st.dups.all.count x + if x = b then 1 else 0 := by
  rw [(insert_keeps h b).count, h.count, List.count_cons]
  by_cases hx : x = b
  · rw [hx, beq_self_eq_true, if_pos rfl, if_pos rfl]
  · rw [if_neg hx, if_neg (by simpa using Ne.symm hx)]

theorem out_of_range (h : ¬v.inRange b = true) : v.chkrange b 1 = true := by
  by_contra hc
  exact h (inRange_iff.2 hc)

/-- What a call leaves: the claims, the states, and the two counters. -/
structure After (v : Layout) (U : Finset ℕ) (cl : List ℕ) (statemap : ℕ → InoState) (badblk dupblk : ℕ)
    (st : Blocks) : Prop extends Claimed v U cl st where
  statemap_eq : st.statemap = statemap
  badblk_eq : st.badblk = badblk
  dupblk_eq : st.dupblk = dupblk

variable {cl : List ℕ}

/-- A free block is claimed. -/
theorem pass1check_free (h : Claimed v U cl st) (hin : v.inRange b = true) (hU : b ∈ U)
    (hfree : st.blockmap b = false) :
    (pass1check v i b st).1 ≠ .stop ∧
      After v U (cl ++ [b]) st.statemap st.badblk st.dupblk (pass1check v i b st).2 := by
  unfold pass1check
  rw [if_neg (inRange_iff.1 hin), if_pos hfree]
  have hstep := h.counted.claim_free hU hfree
  rw [claimCount_snoc] at hstep
  exact ⟨Ret.noConfusion, ⟨hstep, h.twoPart⟩, rfl, rfl, rfl⟩

/-- A block is claimed again. -/
theorem pass1check_taken (h : Claimed v U cl st) (hin : v.inRange b = true) (hU : b ∈ U)
    (htaken : ¬st.blockmap b = false) (hdup : st.dupblk < MAXDUP) :
    (pass1check v i b st).1 ≠ .stop ∧
      After v U (cl ++ [b]) (blkerror i st.statemap) st.badblk (st.dupblk + 1)
        (pass1check v i b st).2 := by
  obtain ⟨found, hfound⟩ := h.twoPart
  unfold pass1check
  rw [if_neg (inRange_iff.1 hin), if_neg htaken]
  dsimp only
  rw [if_neg (Nat.not_le.2 hdup)]
  have hstep := h.counted.claim_taken hU (by simpa using htaken) (insert_count hfound b)
  rw [claimCount_snoc] at hstep
  refine ⟨Ret.noConfusion, ⟨hstep.of_eq rfl (fun _ => rfl) rfl, b :: found, ?_⟩, rfl, rfl, rfl⟩
  exact insert_keeps hfound b

/-- A number is out of range. -/
theorem pass1check_out (h : Claimed v U cl st) (hout : ¬v.inRange b = true) :
    ((pass1check v i b st).1 = .stop ↔ MAXBAD ≤ st.badblk) ∧
      After v U cl (blkerror i st.statemap) (st.badblk + 1) st.dupblk (pass1check v i b st).2 := by
  unfold pass1check
  rw [if_pos (out_of_range hout)]
  dsimp only
  by_cases hbad : MAXBAD ≤ st.badblk
  · rw [if_pos hbad]
    exact ⟨iff_of_true rfl hbad, ⟨h.counted.of_eq rfl (fun _ => rfl) rfl, h.twoPart⟩, rfl, rfl, rfl⟩
  · rw [if_neg hbad]
    exact ⟨iff_of_false Ret.noConfusion hbad, ⟨h.counted.of_eq rfl (fun _ => rfl) rfl, h.twoPart⟩,
      rfl, rfl, rfl⟩

@[simp] theorem claimsOf_nil (k : ℕ) : claimsOf v k [] = [] := by cases k <;> rfl

theorem claimsOf_in (hin : v.inRange b = true) (k : ℕ) (l : List ℕ) :
    claimsOf v k (b :: l) = b :: claimsOf v k l := by
  cases k <;> exact if_pos hin

theorem dupsOf_cons (cl : List ℕ) (b : ℕ) (l : List ℕ) :
    dupsOf v cl (b :: l) = (if 0 < claimCount v cl b then 1 else 0) + dupsOf v (cl ++ [b]) l := rfl

theorem not_marks_nil (k : ℕ) : ¬Marks v cl k [] := by
  rintro (⟨b, hb, -⟩ | hpos)
  · exact List.not_mem_nil hb
  · rw [claimsOf_nil] at hpos
    exact Nat.lt_irrefl 0 hpos

/-- A number that is in range marks the inode when it is claimed already. -/
theorem marks_in (hin : v.inRange b = true) (k : ℕ) (l : List ℕ) :
    Marks v cl k (b :: l) ↔ 0 < claimCount v cl b ∨ Marks v (cl ++ [b]) k l := by
  unfold Marks
  rw [claimsOf_in hin, dupsOf_cons, List.exists_mem_cons_iff]
  have hno : ¬v.inRange b = false := by
    rw [hin]
    exact Bool.noConfusion
  split <;> grind

/-- **The calls of `pass1check` for one inode** add its claims, and mark it. -/
theorem claim_spec (i : ℕ) (l : List ℕ) {k : ℕ} {cl : List ℕ} {st : Blocks}
    (hk : k + st.badblk = MAXBAD) (hdup : st.dupblk + dupsOf v cl (claimsOf v k l) ≤ MAXDUP)
    (hU : ∀ b ∈ l, v.inRange b = true → b ∈ U) (h : Claimed v U cl st) :
    Claimed v U (cl ++ claimsOf v k l) (callAll (pass1check v i) l st).2 ∧
      (callAll (pass1check v i) l st).2.statemap =
        if Marks v cl k l then blkerror i st.statemap else st.statemap := by
  induction l generalizing k cl st with
  | nil =>
    rw [claimsOf_nil, List.append_nil, if_neg (not_marks_nil k)]
    exact ⟨h, rfl⟩
  | cons b l ih =>
    have hUl : ∀ b ∈ l, v.inRange b = true → b ∈ U := fun x hx => hU x (List.mem_cons_of_mem _ hx)
    by_cases hin : v.inRange b = true
    · have hb := hU b (List.mem_cons_self ..) hin
      rw [claimsOf_in hin, dupsOf_cons] at hdup
      rw [claimsOf_in hin, List.append_cons]
      by_cases hfree : st.blockmap b = false
      · -- the block is free
        have hzero : ¬0 < claimCount v cl b := (h.counted.map b).not.1 (by simpa using hfree)
        obtain ⟨hgo, hafter⟩ := pass1check_free (i := i) h hin hb hfree
        rw [if_neg hzero, Nat.zero_add] at hdup
        rw [callAll_go l hgo]
        obtain ⟨hcl, hst⟩ := ih (by rw [hafter.badblk_eq, hk])
          (by rw [hafter.dupblk_eq]; exact hdup) hUl hafter.toClaimed
        refine ⟨hcl, ?_⟩
        rw [hst, hafter.statemap_eq]
        exact if_congr (by rw [marks_in hin, or_iff_right hzero]) rfl rfl
      · -- the block is claimed already
        have hpos : 0 < claimCount v cl b := (h.counted.map b).1 (by simpa using hfree)
        rw [if_pos hpos] at hdup
        obtain ⟨hgo, hafter⟩ := pass1check_taken (i := i) h hin hb hfree (by omega)
        rw [callAll_go l hgo]
        obtain ⟨hcl, hst⟩ := ih (by rw [hafter.badblk_eq, hk])
          (by rw [hafter.dupblk_eq]; omega) hUl hafter.toClaimed
        refine ⟨hcl, ?_⟩
        rw [hst, hafter.statemap_eq, blkerror_blkerror, ite_self,
          if_pos ((marks_in hin k l).2 (.inl hpos))]
    · -- the number is out of range
      obtain ⟨hstop, hafter⟩ := pass1check_out (i := i) h hin
      have hmark : Marks v cl k (b :: l) := .inl ⟨b, List.mem_cons_self .., by simpa using hin⟩
      rw [if_pos hmark]
      cases k with
      | zero =>
        have hclaims : claimsOf v 0 (b :: l) = [] := if_neg hin
        rw [callAll_stop l (hstop.2 (by omega)), hclaims, List.append_nil]
        exact ⟨hafter.toClaimed, hafter.statemap_eq⟩
      | succ k =>
        have hclaims : claimsOf v (k + 1) (b :: l) = claimsOf v k l := if_neg hin
        rw [hclaims] at hdup
        have hleft : k + (st.badblk + 1) = MAXBAD := by omega
        rw [callAll_go l (hstop.not.2 (by omega)), hclaims]
        obtain ⟨hcl, hst⟩ := ih (by rw [hafter.badblk_eq, hleft])
          (by rw [hafter.dupblk_eq]; exact hdup) hUl hafter.toClaimed
        refine ⟨hcl, ?_⟩
        rw [hst, hafter.statemap_eq, blkerror_blkerror, ite_self]

theorem pass4check_ret : (pass4check v b st).1 = if v.inRange b then .keepon else .skip := by
  unfold pass4check
  by_cases hin : v.inRange b = true
  · rw [if_neg (inRange_iff.1 hin), if_pos hin]
    by_cases hmap : st.blockmap b = true
    · rw [if_pos hmap]
      split <;> rfl
    · rw [if_neg hmap]
  · rw [if_pos (out_of_range hin), if_neg hin]

theorem pass4check_answers : Answers v (fun b => pass4check v b) := fun _ _ => .inr pass4check_ret

/-- `pass4check` never ends the walk. -/
theorem pass4check_go : (pass4check v b st).1 ≠ .stop := by
  rw [pass4check_ret]
  split <;> exact Ret.noConfusion

/-- **The calls of `pass4check` for one inode** take one claim back for each number. -/
theorem drop_spec (l : List ℕ) {cnt : ℕ → ℕ} {st : Blocks}
    (hU : ∀ b ∈ l, v.inRange b = true → b ∈ U) (h : Counted v U cnt st) :
    Counted v U (fun b => cnt b - (l.filter v.inRange).count b)
      (callAll (fun b => pass4check v b) l st).2 := by
  induction l generalizing cnt st with
  | nil => exact h
  | cons b l ih =>
    have hUl : ∀ b ∈ l, v.inRange b = true → b ∈ U := fun x hx => hU x (List.mem_cons_of_mem _ hx)
    rw [callAll_go l pass4check_go]
    by_cases hin : v.inRange b = true
    · have hstep := ih hUl (pass4check_counted h (hU b (List.mem_cons_self ..) hin) hin)
      rw [List.filter_cons_of_pos hin]
      convert hstep using 2 with x
      by_cases hx : x = b
      · rw [hx, Function.update_self, List.count_cons_self]
        omega
      · rw [Function.update_of_ne hx, List.count_cons_of_ne (Ne.symm hx)]
    · have hsame : (pass4check v b st).2 = st := by
        unfold pass4check
        rw [if_pos (out_of_range hin)]
      rw [List.filter_cons_of_neg hin, hsame]
      exact ih hUl h

end Ext2fs.Fsck
