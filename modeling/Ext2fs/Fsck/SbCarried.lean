import Ext2fs.Fsck.SbRuns

/-!
# What the superblock on disk carries

The passes change the superblock in memory, and `copyback_sb` carries a list of its fields over into the
buffer.  The list leaves `e2fs_features_rocompat` out, in which `setlarge` sets a flag.

* `Carries` — the buffer is the superblock in memory up to that field;
* `step_carries`, `ckfini_carries`, `setup_carries` — this is kept all the way;
* `steps_flag` — the flag in memory after the passes;
* **`lastSb_iff`** — the runs after which the last superblock written is the one in memory.
-/

namespace Ext2fs.Fsck

section

variable (env : Env) {s s' : St} {c : BitVec 32} {b : Buf} {blk : ℤ}

/-- The buffer is the superblock in memory, but for the flags, which are `c` as they were read; so is
what was written last, unless there are changes to write. -/
structure Carries (c : BitVec 32) (s : St) : Prop where
  img : s.img = { s.sblock with e2fs_features_rocompat := c }
  bno : 0 ≤ s.sblk.b_bno
  last : s.sblk.b_dirty = false → ∀ i, lastSb s.log = some i → i = s.img
  flag : s.sblock.e2fs_features_rocompat ≠ c → s.sblk.b_dirty = true ∨ ∃ i, lastSb s.log = some i

/-- `sbdirty` after a change of fields that are copied, or of the flags. -/
theorem Carries.sbdirty (h : Carries c s) {fs : SbImage}
    (hcopy : copybackSb s.img fs = { fs with e2fs_features_rocompat := c }) :
    Carries c (sbdirty { s with sblock := fs }) where
  img := hcopy
  bno := h.bno
  last hd := absurd (show true = false from hd) (by decide)
  flag _ := .inl rfl

/-! ### Writes -/

theorem bwrite_lastSb (hb : b ≠ .sblk) (s : St) (img : Option SbImage) :
    lastSb (bwrite env b blk img s).log = lastSb s.log := by
  unfold bwrite
  split
  · cases b with
    | sblk => exact absurd rfl hb
    | asblk => rfl
    | gd i => rfl
    | pool n => rfl
  · rfl

theorem bwriteGds_lastSb (fs : SbImage) (is : List ℕ) (s : St) :
    lastSb (is.foldl (fun s i => bwrite env (.gd i) (fs.gdSector i) none s) s).log =
      lastSb s.log := by
  induction is generalizing s with
  | nil => rfl
  | cons i is ih => exact (ih _).trans (bwrite_lastSb env Buf.noConfusion s none)

theorem bwriteGds_same (fs : SbImage) (is : List ℕ) (s : St) :
    SameVars (is.foldl (fun s i => bwrite env (.gd i) (fs.gdSector i) none s) s) s := by
  induction is generalizing s with
  | nil => exact .refl s
  | cons i is ih => exact (ih _).trans (bwrite_same env s)

/-- A flush of another buffer. -/
theorem Carries.flush_other (h : Carries c s) (hb : b ≠ .sblk) : Carries c (flush env b s) := by
  have hkeep : ∀ t u : St, Carries c t → SameVars u t → lastSb u.log = lastSb t.log →
      Carries c u := fun t u ht hsame hlast =>
    ⟨by rw [hsame.img, hsame.sblock]; exact ht.img, by rw [hsame.sblk]; exact ht.bno,
      by rw [hsame.sblk, hsame.img, hlast]; exact ht.last,
      by rw [hsame.sblk, hsame.sblock, hlast]; exact ht.flag⟩
  unfold flush
  cases b with
  | sblk => exact absurd rfl hb
  | gd i => exact h
  | asblk =>
    dsimp only
    split
    · exact hkeep { s with asblk := s.asblk.flushed } _ ⟨h.img, h.bno, h.last, h.flag⟩
        (bwrite_same env _) (bwrite_lastSb env hb _ _)
    · exact h
  | pool n =>
    dsimp only
    split
    · exact hkeep { s with pool := Function.update s.pool n (s.pool n).flushed } _
        ⟨h.img, h.bno, h.last, h.flag⟩ (bwrite_same env _) (bwrite_lastSb env hb _ _)
    · exact h

/-- **A flush of the superblock** writes what the buffer holds. -/
theorem Carries.flush_sblk (h : Carries c s) (hw : env.writable = true) :
    Carries c (flush env .sblk s) ∧ (flush env .sblk s).sblk.b_dirty = false := by
  cases hd : s.sblk.b_dirty with
  | false =>
    rw [flush_clean env hd]
    exact ⟨h, hd⟩
  | true =>
    unfold flush
    dsimp only
    rw [if_pos hd]
    unfold bwriteGd
    generalize ht : bwrite env .sblk s.sblk.b_bno (some s.img)
      { s with sblk := s.sblk.flushed } = t
    have hsame : SameVars t { s with sblk := s.sblk.flushed } := by
      rw [← ht]
      exact bwrite_same env _
    have hlast : lastSb t.log = some s.img := by
      rw [← ht]
      unfold bwrite
      rw [if_pos ⟨hw, h.bno⟩]
      rfl
    have hgds := bwriteGds_same env t.sblock (List.range t.sblock.gdbcount) t
    have hgdl := bwriteGds_lastSb env t.sblock (List.range t.sblock.gdbcount) t
    rw [hlast] at hgdl
    refine ⟨⟨?_, ?_, fun _ i hi => ?_, fun _ => .inr ⟨_, hgdl⟩⟩, ?_⟩
    · rw [hgds.img, hsame.img, hgds.sblock, hsame.sblock]
      exact h.img
    · rw [hgds.sblk, hsame.sblk]
      exact h.bno
    · rw [hgds.img, hsame.img]
      exact Option.some.inj (hi.symm.trans hgdl)
    · rw [hgds.sblk, hsame.sblk]
      rfl

/-! ### The passes -/

theorem Carries.setlarge (h : Carries c s) (set : Bool) : Carries c (setlarge env set s) := by
  unfold Fsck.setlarge
  split_ifs
  · exact h
  · exact h
  · exact h.sbdirty (by rw [h.img]; rfl)
  · exact h

theorem Carries.getblk (h : Carries c s) (n : ℕ) (dblk : ℤ) : Carries c (getblk env n dblk s) := by
  unfold Fsck.getblk
  split
  · exact h
  · have hf := h.flush_other env (b := .pool n) Buf.noConfusion
    exact ⟨hf.img, hf.bno, hf.last, hf.flag⟩

/-- **One step** carries its changes over. -/
theorem step_carries (h : Carries c s) (hw : env.writable = true) (a : Step) :
    Carries c (step env s a) := by
  cases a with
  | inosize size set =>
    show Carries c (if _ then _ else _)
    split
    · exact h.setlarge env set
    · exact h
  | altered => exact h.sbdirty (by rw [h.img]; rfl)
  | totals nbfree nifree fix =>
    show Carries c (if _ then _ else _)
    split
    · exact h.sbdirty (by rw [h.img]; rfl)
    · exact h
  | dirty n => exact ⟨h.img, h.bno, h.last, h.flag⟩
  | getblk n dblk => exact h.getblk env n dblk
  | flush b =>
    by_cases hb : b = .sblk
    · rw [hb]
      exact (h.flush_sblk env hw).1
    · exact h.flush_other env hb

theorem steps_carries (h : Carries c s) (hw : env.writable = true) (as : List Step) :
    Carries c (as.foldl (step env) s) := by
  induction as generalizing s with
  | nil => exact h
  | cons a as ih => exact ih (step_carries env h hw a)

/-! ### The flag -/

/-- A step sets the large file flag: an inode of 2 GiB is met on a volume of revision 1 without it. -/
def SetsFlag (fs : SbImage) : Step → Prop
  | .inosize size set =>
      0x80000000 ≤ size ∧ E2FS_REV1.toNat ≤ fs.e2fs_rev.toNat ∧
        fs.e2fs_features_rocompat &&& EXT2F_ROCOMPAT_LARGEFILE = 0 ∧
        (env.preen = true ∨ set = true ∧ env.writable = true)
  | _ => False

theorem flush_sblock (s : St) (b : Buf) : (flush env b s).sblock = s.sblock := by
  unfold flush
  cases b with
  | sblk =>
    dsimp only
    split
    · exact ((bwriteGds_same env _ _ _).trans (bwrite_same env _)).sblock
    · rfl
  | asblk => dsimp only; split <;> [exact (bwrite_same env _).sblock; rfl]
  | pool n => dsimp only; split <;> [exact (bwrite_same env _).sblock; rfl]
  | gd i => rfl

theorem getblk_sblock (s : St) (n : ℕ) (dblk : ℤ) :
    (Fsck.getblk env n dblk s).sblock = s.sblock := by
  unfold Fsck.getblk
  split
  · rfl
  · exact flush_sblock env s _

/-- A step that does not set the flag leaves the flags and the revision alone. -/
theorem step_flag (s : St) (a : Step) (h : ¬SetsFlag env s.sblock a) :
    (step env s a).sblock.e2fs_features_rocompat = s.sblock.e2fs_features_rocompat ∧
      (step env s a).sblock.e2fs_rev = s.sblock.e2fs_rev := by
  cases a with
  | inosize size set =>
    show (ite _ _ _ : St).sblock.e2fs_features_rocompat = _ ∧ (ite _ _ _ : St).sblock.e2fs_rev = _
    by_cases hsize : 0x80000000 ≤ size
    swap
    · rw [if_neg hsize]
      exact ⟨rfl, rfl⟩
    rw [if_pos hsize]
    unfold Fsck.setlarge
    split_ifs with hrev hflag hyes
    · exact ⟨rfl, rfl⟩
    · exact ⟨rfl, rfl⟩
    · exact absurd ⟨hsize, not_lt.1 hrev, not_not.1 hflag, hyes⟩ h
    · exact ⟨rfl, rfl⟩
  | altered => exact ⟨rfl, rfl⟩
  | totals nbfree nifree fix =>
    show (ite _ _ _ : St).sblock.e2fs_features_rocompat = _ ∧ (ite _ _ _ : St).sblock.e2fs_rev = _
    split <;> exact ⟨rfl, rfl⟩
  | dirty n => exact ⟨rfl, rfl⟩
  | getblk n dblk =>
    show (Fsck.getblk env n dblk s).sblock.e2fs_features_rocompat = _ ∧
      (Fsck.getblk env n dblk s).sblock.e2fs_rev = _
    rw [getblk_sblock]
    exact ⟨rfl, rfl⟩
  | flush b =>
    show (flush env b s).sblock.e2fs_features_rocompat = _ ∧ (flush env b s).sblock.e2fs_rev = _
    rw [flush_sblock]
    exact ⟨rfl, rfl⟩

/-- A step that sets the flag. -/
theorem step_sets (s : St) (a : Step) (h : SetsFlag env s.sblock a) :
    (step env s a).sblock.e2fs_features_rocompat =
      s.sblock.e2fs_features_rocompat ||| EXT2F_ROCOMPAT_LARGEFILE := by
  cases a with
  | inosize size set =>
    obtain ⟨hsize, hrev, hflag, hyes⟩ := h
    show (ite _ _ _ : St).sblock.e2fs_features_rocompat = _
    rw [if_pos hsize]
    unfold Fsck.setlarge
    rw [if_neg (not_lt.2 hrev), if_neg (not_not.2 hflag), if_pos hyes]
    rfl
  | altered => exact h.elim
  | totals nbfree nifree fix => exact h.elim
  | dirty n => exact h.elim
  | getblk n dblk => exact h.elim
  | flush b => exact h.elim

/-- Whether a step sets the flag does not depend on other fields. -/
theorem setsFlag_congr {fs fs' : SbImage}
    (hflag : fs'.e2fs_features_rocompat = fs.e2fs_features_rocompat)
    (hrev : fs'.e2fs_rev = fs.e2fs_rev) (a : Step) : SetsFlag env fs' a ↔ SetsFlag env fs a := by
  cases a <;> simp only [SetsFlag, hflag, hrev]

/-- A flag that is set stays. -/
theorem steps_flag_set (s : St) (as : List Step)
    (h : s.sblock.e2fs_features_rocompat &&& EXT2F_ROCOMPAT_LARGEFILE ≠ 0) :
    (as.foldl (step env) s).sblock.e2fs_features_rocompat = s.sblock.e2fs_features_rocompat := by
  induction as generalizing s with
  | nil => rfl
  | cons a as ih =>
    have hnot : ¬SetsFlag env s.sblock a := by
      cases a with
      | inosize size set => exact fun hc => h hc.2.2.1
      | altered => exact id
      | totals nbfree nifree fix => exact id
      | dirty n => exact id
      | getblk n dblk => exact id
      | flush b => exact id
    have hflag := (step_flag env s a hnot).1
    exact (ih (step env s a) (hflag ▸ h)).trans hflag

/-- **The flags after the passes** are what they were exactly when no step sets the one. -/
theorem steps_flag (s : St) (as : List Step) :
    (as.foldl (step env) s).sblock.e2fs_features_rocompat = s.sblock.e2fs_features_rocompat ↔
      ∀ a ∈ as, ¬SetsFlag env s.sblock a := by
  induction as generalizing s with
  | nil => simp
  | cons a as ih =>
    rw [List.forall_mem_cons, List.foldl_cons]
    by_cases ha : SetsFlag env s.sblock a
    · refine iff_of_false (fun hc => ?_) fun hc => hc.1 ha
      have hset := step_sets env s a ha
      have hzero : s.sblock.e2fs_features_rocompat &&& EXT2F_ROCOMPAT_LARGEFILE = 0 := by
        cases a with
        | inosize size set => exact ha.2.2.1
        | altered => exact ha.elim
        | totals nbfree nifree fix => exact ha.elim
        | dirty n => exact ha.elim
        | getblk n dblk => exact ha.elim
        | flush b => exact ha.elim
      have hone : (step env s a).sblock.e2fs_features_rocompat &&& EXT2F_ROCOMPAT_LARGEFILE ≠ 0 := by
        rw [hset, BitVec.and_or_distrib_right, hzero]
        decide
      rw [steps_flag_set env _ as hone] at hc
      rw [hc] at hone
      exact hone hzero
    · obtain ⟨hflag, hrev⟩ := step_flag env s a ha
      rw [← hflag, ih, and_iff_right ha]
      exact forall₂_congr fun a' _ => not_congr (setsFlag_congr env hflag hrev a')

/-! ### The end of a run -/

/-- Whatever `ckfini` does, it leaves the flags alone and nothing to write. -/
theorem ckfini_carries (h : Carries c s) (hw : env.writable = true) (markclean : Bool) (f : Fini) :
    Carries c (ckfini env markclean f s) ∧ (ckfini env markclean f s).sblk.b_dirty = false ∧
      (ckfini env markclean f s).sblock.e2fs_features_rocompat =
        s.sblock.e2fs_features_rocompat := by
  unfold ckfini
  rw [if_pos hw]
  obtain ⟨h1, hd1⟩ := h.flush_sblk env hw
  have hs1 := flush_sblock env s .sblk
  generalize flush env .sblk s = t at h1 hd1 hs1
  -- the standard superblocks
  have h2 : Carries c (updateStandard env f.update t) ∧
      (updateStandard env f.update t).sblk.b_dirty = false ∧
      (updateStandard env f.update t).sblock = t.sblock := by
    unfold updateStandard
    split
    swap
    · exact ⟨h1, hd1, rfl⟩
    dsimp only
    have hdirty : Carries c (sbdirty { t with sblk := { t.sblk with b_bno := SBSECTOR } }) :=
      ⟨by rw [sbdirty, h1.img]; rfl, show (0 : ℤ) ≤ SBSECTOR by decide,
        fun hc => absurd (show true = false from hc) (by decide), fun _ => .inl rfl⟩
    obtain ⟨hc1, hcd1⟩ := hdirty.flush_sblk env hw
    have hcs1 := flush_sblock env (sbdirty { t with sblk := { t.sblk with b_bno := SBSECTOR } }) .sblk
    generalize flush env .sblk (sbdirty { t with sblk := { t.sblk with b_bno := SBSECTOR } }) = u
      at hc1 hcd1 hcs1
    generalize hv : ({ u with
      aimg := copybackSb u.aimg u.sblock
      asblk := { u.asblk with b_dirty := true } } : St) = v
    have hvc : Carries c v := by
      rw [← hv]
      exact ⟨hc1.img, hc1.bno, hc1.last, hc1.flag⟩
    refine ⟨hvc.flush_other env Buf.noConfusion, ?_, ?_⟩
    · rw [flush_sblk env v Buf.noConfusion, ← hv]
      exact hcd1
    · rw [flush_sblock, ← hv]
      exact hcs1
  obtain ⟨h2, hd2, hs2⟩ := h2
  generalize updateStandard env f.update t = u at h2 hd2 hs2
  -- the pool
  have h3 : ∀ ns : List ℕ, ∀ u, Carries c u → u.sblk.b_dirty = false →
      Carries c (ns.foldl (fun s n => flush env (.pool n) s) u) ∧
      (ns.foldl (fun s n => flush env (.pool n) s) u).sblk.b_dirty = false ∧
      (ns.foldl (fun s n => flush env (.pool n) s) u).sblock = u.sblock := by
    intro ns
    induction ns with
    | nil => exact fun u hu hd => ⟨hu, hd, rfl⟩
    | cons n ns ih =>
      intro u hu hd
      obtain ⟨ih1, ih2, ih3⟩ := ih (flush env (.pool n) u) (hu.flush_other env Buf.noConfusion)
        (by rw [flush_sblk env u Buf.noConfusion]; exact hd)
      exact ⟨ih1, ih2, ih3.trans (flush_sblock env u _)⟩
  obtain ⟨h3, hd3, hs3⟩ := h3 (List.range env.nbufs) u h2 hd2
  dsimp only
  generalize (List.range env.nbufs).foldl (fun s n => flush env (.pool n) s) u = w at h3 hd3 hs3
  have hflag : w.sblock.e2fs_features_rocompat = s.sblock.e2fs_features_rocompat := by
    rw [hs3, hs2, hs1]
  cases markclean with
  | false => exact ⟨h3, hd3, hflag⟩
  | true =>
    rw [if_pos rfl]
    unfold markClean
    split
    swap
    · exact ⟨h3, hd3, hflag⟩
    have hmark : Carries c
        (sbdirty { w with sblock := { w.sblock with e2fs_state := E2FS_ISCLEAN } }) :=
      h3.sbdirty (by rw [h3.img]; rfl)
    obtain ⟨h4, hd4⟩ := hmark.flush_sblk env hw
    refine ⟨h4, hd4, ?_⟩
    rw [flush_sblock]
    exact hflag

/-! ### `setup` -/

/-- Nothing has been written of the superblock, and the buffer is what is in memory. -/
structure Fresh (s : St) : Prop where
  img : s.img = s.sblock
  log : lastSb s.log = none

theorem getblkAlt_fresh (h : Fresh s) (dblk : ℤ) : Fresh (getblkAlt env dblk s) := by
  unfold getblkAlt
  split
  · exact h
  · refine ⟨?_, ?_⟩
    · show (flush env .asblk s).img = (flush env .asblk s).sblock
      unfold flush
      dsimp only
      split
      · rw [(bwrite_same env _).img, (bwrite_same env _).sblock]
        exact h.img
      · exact h.img
    · show lastSb (flush env .asblk s).log = none
      unfold flush
      dsimp only
      split
      · rw [bwrite_lastSb env Buf.noConfusion]
        exact h.log
      · exact h.log

theorem readsb_fresh (h : Fresh s) : Fresh (readsb env s).2 := by
  unfold readsb
  cases breadSb env s.super with
  | none => exact h
  | some img =>
    dsimp only
    split
    · exact ⟨rfl, h.log⟩
    unfold compareAlternate
    split
    · exact ⟨rfl, h.log⟩
    dsimp only
    generalize ({ s.load img with
      sblk := { (s.load img).sblk with b_bno := (s.load img).super.tdiv DEV_BSIZE } } : St).sblock.altSector
      = dblk
    have halt := getblkAlt_fresh env (s := { s.load img with
      sblk := { (s.load img).sblk with b_bno := (s.load img).super.tdiv DEV_BSIZE } })
      ⟨rfl, h.log⟩ dblk
    split_ifs <;> exact ⟨halt.img, halt.log⟩

theorem tryAlternates_fresh (h : Fresh s) (sectors : List ℤ) :
    Fresh (tryAlternates env sectors s).2 := by
  induction sectors generalizing s with
  | nil => exact h
  | cons sector sectors ih =>
    have hs : Fresh { s with bflag := sector } := ⟨h.img, h.log⟩
    unfold tryAlternates
    dsimp only
    split
    · exact readsb_fresh env hs
    · exact ih (readsb_fresh env hs)

theorem readGd_lastSb (s : St) : lastSb (readGd s).log = lastSb s.log := by
  unfold readGd
  dsimp only
  generalize List.range s.sblock.gdbcount = is
  generalize s.log = log
  induction is generalizing log with
  | nil => rfl
  | cons i is ih => exact ih (.read (.gd i) (s.sblock.gdSector i) :: log)

theorem setup_fresh {fs : SbImage} (h : setup env fs = some s) : Fresh s := by
  have hinit : Fresh (St.init env fs) := ⟨rfl, rfl⟩
  unfold setup at h
  split_ifs at h
  obtain ⟨r, hr, h⟩ := Option.bind_eq_some_iff.1 h
  split_ifs at h
  obtain ⟨t, ht, h⟩ := Option.bind_eq_some_iff.1 h
  split_ifs at h
  have hfound : Fresh r.1 := by
    unfold findSb at hr
    dsimp only at hr
    split_ifs at hr
    · cases hr
      exact readsb_fresh env hinit
    · obtain ⟨blocks, -, hblocks⟩ := Option.bind_eq_some_iff.1 hr
      split_ifs at hblocks
      cases hblocks
      exact tryAlternates_fresh env (readsb_fresh env hinit) _
  have hfixed : Fresh t := by
    unfold fixReserved at ht
    split_ifs at ht <;> cases ht
    · exact hfound
    · exact ⟨by rw [sbdirty, hfound.img]; rfl, hfound.log⟩
    · exact hfound
  have halt : Fresh (writeAlt env t) := by
    unfold writeAlt
    split
    swap
    · exact hfixed
    unfold flush
    dsimp only
    split
    · refine ⟨?_, ?_⟩
      · rw [(bwrite_same env _).img, (bwrite_same env _).sblock]
        exact hfixed.img
      · rw [bwrite_lastSb env Buf.noConfusion]
        exact hfixed.log
    · exact ⟨hfixed.img, hfixed.log⟩
  cases h
  exact ⟨halt.img, (readGd_lastSb _).trans halt.log⟩

/-- **After `setup`** the buffer carries everything. -/
theorem setup_carries {fs : SbImage} (h : setup env fs = some s) :
    Carries s.sblock.e2fs_features_rocompat s := by
  have hfresh := setup_fresh env h
  exact ⟨hfresh.img, (setup_spec env h).1.bno_nonneg,
    fun _ i hi => absurd (hfresh.log.symm.trans hi) (Option.some_ne_none i).symm,
    fun hc => absurd rfl hc⟩

/-! ### Whole runs -/

/-- Where nothing can be written, nothing is. -/
theorem flush_readonly (hw : env.writable = false) (s : St) (b : Buf) :
    lastSb (flush env b s).log = lastSb s.log := by
  have hwrite : ∀ b blk img s, bwrite env b blk img s = s := fun b blk img s =>
    if_neg fun hc => by rw [hw] at hc; exact absurd hc.1 Bool.false_ne_true
  unfold flush
  cases b with
  | sblk =>
    dsimp only
    split
    · unfold bwriteGd
      rw [bwriteGds_lastSb, hwrite]
    · rfl
  | asblk => dsimp only; split <;> [rw [hwrite]; rfl]
  | pool n => dsimp only; split <;> [rw [hwrite]; rfl]
  | gd i => rfl

theorem steps_readonly (hw : env.writable = false) (as : List Step) (s : St) :
    lastSb (as.foldl (step env) s).log = lastSb s.log := by
  induction as generalizing s with
  | nil => rfl
  | cons a as ih =>
    refine (ih (step env s a)).trans ?_
    cases a with
    | inosize size set =>
      show lastSb (ite _ _ _ : St).log = _
      split
      · unfold Fsck.setlarge
        split_ifs <;> rfl
      · rfl
    | altered => rfl
    | totals nbfree nifree fix =>
      show lastSb (ite _ _ _ : St).log = _
      split <;> rfl
    | dirty n => rfl
    | getblk n dblk =>
      show lastSb (Fsck.getblk env n dblk s).log = _
      unfold Fsck.getblk
      split
      · rfl
      · exact flush_readonly env hw s _
    | flush b => exact flush_readonly env hw s b

/-- The times are carried over too. -/
theorem Carries.stamp (h : Carries c s) (time : BitVec 32) :
    Carries c (stamp time s) ∧ (Fsck.stamp time s).sblock.e2fs_features_rocompat =
      s.sblock.e2fs_features_rocompat := by
  unfold Fsck.stamp
  split
  · exact ⟨h.sbdirty (by rw [h.img]; rfl), rfl⟩
  · exact ⟨h, rfl⟩

theorem run_carries (h : Carries c s) (hw : env.writable = true) (as : List Step) (f : Fini) :
    Carries c (run env as (some f) s) ∧ (run env as (some f) s).sblk.b_dirty = false ∧
      (run env as (some f) s).sblock.e2fs_features_rocompat =
        (as.foldl (step env) s).sblock.e2fs_features_rocompat := by
  have hsteps := steps_carries env h hw as
  unfold run
  generalize as.foldl (step env) s = t at hsteps ⊢
  show Carries c (if f.done = true then _ else _) ∧
    (ite (f.done = true) _ _ : St).sblk.b_dirty = false ∧
      (ite (f.done = true) _ _ : St).sblock.e2fs_features_rocompat = _
  split
  · obtain ⟨hstamp, hflag⟩ := hsteps.stamp f.time
    obtain ⟨h1, h2, h3⟩ := ckfini_carries env hstamp hw true f
    exact ⟨h1, h2, h3.trans hflag⟩
  · exact ckfini_carries env hsteps hw false f

/-- **The runs after which the superblock written last is the one in memory** are those in which
nothing can be written or no step sets the large file flag. -/
theorem lastSb_iff (fs : SbImage) (as : List Step) (f : Fini) :
    (∀ s, setup env fs = some s → ∀ img, lastSb (run env as (some f) s).log = some img →
        img = (run env as (some f) s).sblock) ↔
      ∀ s, setup env fs = some s → env.writable = true → ∀ a ∈ as, ¬SetsFlag env s.sblock a := by
  refine forall₂_congr fun s hs => ?_
  have hsetup := setup_carries env hs
  cases hw : env.writable with
  | false =>
    refine iff_of_true (fun img himg => ?_) fun hc => absurd hc Bool.false_ne_true
    have hnone : lastSb (run env as (some f) s).log = none := by
      refine Eq.trans ?_ ((steps_readonly env hw as s).trans (setup_fresh env hs).log)
      have hend : ∀ markclean t, ckfini env markclean f t = t := fun markclean t =>
        if_neg (by rw [hw]; exact Bool.false_ne_true)
      show lastSb (if f.done = true then ckfini env true f (stamp f.time _)
        else ckfini env false f _).log = _
      rw [hend, hend]
      unfold Fsck.stamp
      split <;> [split <;> rfl; rfl]
    rw [hnone] at himg
    cases himg
  | true =>
    obtain ⟨hrun, hclean, hflag⟩ := run_carries env hsetup hw as f
    rw [← steps_flag, ← hflag]
    generalize run env as (some f) s = u at hrun hclean
    constructor
    · intro h _
      by_contra hne
      obtain ⟨i, hi⟩ := (hrun.flag hne).resolve_left (by rw [hclean]; decide)
      have himg := (h i hi).symm.trans ((hrun.last hclean i hi).trans hrun.img)
      have hflags := congrArg (fun x : SbImage => x.toSuperblock.e2fs_features_rocompat) himg
      exact hne hflags
    · intro h img himg
      rw [hrun.last hclean img himg, hrun.img, ← h rfl]

end

/-- A yes to every question, over a volume of one group. -/
def yesOneGroup : Env where
  bflag := 0
  preen := false
  skipclean := false
  writable := true
  disk n := if n = 2 then some oneGroup else none
  devBlocks := some 1024
  lookForAlternates := true
  setToDefault := true
  nbufs := 5

/-- After a file of 2 GiB was met, the flag is in memory and not in the superblock that is written. -/
theorem large_not_carried :
    ∃ s, setup yesOneGroup oneGroup = some s ∧ ∃ img,
      lastSb (run yesOneGroup [.inosize 0x80000000 true] (some ⟨true, 7, true, true⟩) s).log =
        some img ∧
      img ≠ (run yesOneGroup [.inosize 0x80000000 true] (some ⟨true, 7, true, true⟩) s).sblock := by
  have hrun : (setup yesOneGroup oneGroup).any (fun s =>
      let t := run yesOneGroup [.inosize 0x80000000 true] (some ⟨true, 7, true, true⟩) s
      (lastSb t.log).any fun img => decide (img ≠ t.sblock)) = true := by decide +kernel
  obtain ⟨s, hs, h⟩ := (Option.any_eq_true _ _).1 hrun
  obtain ⟨img, himg, hne⟩ := (Option.any_eq_true _ _).1 h
  exact ⟨s, hs, img, himg, of_decide_eq_true hne⟩

end Ext2fs.Fsck
