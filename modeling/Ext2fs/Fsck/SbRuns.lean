import Ext2fs.Fsck.Superblock

/-!
# Where the checker writes superblocks

`readsb` leaves the sector of the superblock divided by the sector size in `b_bno`, which is sector 0
for the primary.  Every other buffer is written where it was read.

* `Placed` — what the buffers are read from and would be written to;
* `flush_spec`, `step_spec`, `ckfini_spec` — each keeps `Placed`, and what each has to do with writing in
  place;
* `setup_spec` — what `setup` leaves;
* **`writes_inPlace_iff`** — the runs that write everything in place.
-/

namespace Ext2fs.Fsck

/-! ### Writes and the log -/

section

variable (env : Env) {s s' : St} {b : Buf} {blk super : ℤ} {img : Option SbImage}

/-- Two states that differ in the log and in `fsmodified` alone, and whose logs have the same reads. -/
structure SameVars (s' s : St) : Prop where
  sblock : s'.sblock = s.sblock
  sblk : s'.sblk = s.sblk
  asblk : s'.asblk = s.asblk
  img : s'.img = s.img
  aimg : s'.aimg = s.aimg
  pool : s'.pool = s.pool
  bflag : s'.bflag = s.bflag
  havesb : s'.havesb = s.havesb
  lastRead : ∀ b, lastRead b s'.log = lastRead b s.log

theorem SameVars.refl (s : St) : SameVars s s := ⟨rfl, rfl, rfl, rfl, rfl, rfl, rfl, rfl, fun _ => rfl⟩

theorem SameVars.trans {s'' : St} (h : SameVars s'' s') (h' : SameVars s' s) : SameVars s'' s where
  sblock := h.sblock.trans h'.sblock
  sblk := h.sblk.trans h'.sblk
  asblk := h.asblk.trans h'.asblk
  img := h.img.trans h'.img
  aimg := h.aimg.trans h'.aimg
  pool := h.pool.trans h'.pool
  bflag := h.bflag.trans h'.bflag
  havesb := h.havesb.trans h'.havesb
  lastRead b := (h.lastRead b).trans (h'.lastRead b)

theorem bwrite_same (s : St) : SameVars (bwrite env b blk img s) s := by
  unfold bwrite
  split
  · exact ⟨rfl, rfl, rfl, rfl, rfl, rfl, rfl, rfl, fun _ => rfl⟩
  · exact .refl s

/-- A write is in place where its sector is the one of the last read. -/
theorem bwrite_inPlace (s : St) :
    InPlace (bwrite env b blk img s).log ↔
      (env.writable = true ∧ 0 ≤ blk →
        lastRead b s.log = some blk ∨ b = .sblk ∧ blk = SBSECTOR) ∧ InPlace s.log := by
  unfold bwrite
  by_cases h : env.writable = true ∧ 0 ≤ blk
  · rw [if_pos h]
    show _ ∧ InPlace s.log ↔ _
    exact and_congr_left fun _ => ⟨fun hx _ => hx, fun hx => hx h⟩
  · rw [if_neg h]
    exact ⟨fun hx => ⟨fun hc => absurd hc h, hx⟩, And.right⟩

/-- Writes of descriptor blocks to where they were read change nothing about the log. -/
theorem bwriteGds_spec (fs : SbImage) (is : List ℕ) (s : St)
    (hread : ∀ i ∈ is, lastRead (.gd i) s.log = some (fs.gdSector i)) :
    SameVars (is.foldl (fun s i => bwrite env (.gd i) (fs.gdSector i) none s) s) s ∧
      (InPlace (is.foldl (fun s i => bwrite env (.gd i) (fs.gdSector i) none s) s).log ↔
        InPlace s.log) := by
  induction is generalizing s with
  | nil => exact ⟨.refl s, Iff.rfl⟩
  | cons i is ih =>
    have hsame : SameVars (bwrite env (.gd i) (fs.gdSector i) none s) s := bwrite_same env s
    obtain ⟨h1, h2⟩ := ih (bwrite env (.gd i) (fs.gdSector i) none s) fun j hj => by
      rw [hsame.lastRead]
      exact hread j (List.mem_cons_of_mem _ hj)
    refine ⟨h1.trans hsame, h2.trans ?_⟩
    rw [bwrite_inPlace]
    exact and_iff_right fun _ => .inl (hread i (List.mem_cons_self ..))

/-! ### Where the buffers belong -/

/-- A buffer that has an address was read from there. -/
def ReadFrom (log : List Io) (b : Buf) (bp : BufArea) : Prop :=
  bp.b_bno < 0 ∨ lastRead b log = some bp.b_bno

/-- The superblock was read from sector `super`, and every other buffer from where it would be written
to. -/
structure Placed (super : ℤ) (s : St) : Prop where
  super_nonneg : 0 ≤ super
  havesb : s.havesb = true
  sblk : lastRead .sblk s.log = some super
  bno : s.sblk.b_bno = super.tdiv DEV_BSIZE ∨ s.sblk.b_bno = SBSECTOR
  alt : ReadFrom s.log .asblk s.asblk
  gd : ∀ i < s.sblock.gdbcount, lastRead (.gd i) s.log = some (s.sblock.gdSector i)
  pool : ∀ n, ReadFrom s.log (.pool n) (s.pool n)

theorem Placed.same (h : Placed super s) (hs : SameVars s' s) : Placed super s' where
  super_nonneg := h.super_nonneg
  havesb := hs.havesb.trans h.havesb
  sblk := (hs.lastRead _).trans h.sblk
  bno := by
    rw [hs.sblk]
    exact h.bno
  alt := by
    unfold ReadFrom
    rw [hs.asblk, hs.lastRead]
    exact h.alt
  gd i hi := by
    rw [hs.sblock] at hi ⊢
    rw [hs.lastRead]
    exact h.gd i hi
  pool n := by
    unfold ReadFrom
    rw [hs.pool, hs.lastRead]
    exact h.pool n

/-- The superblock buffer is written where it belongs. -/
def AtHome (super : ℤ) (s : St) : Prop := s.sblk.b_bno = super ∨ s.sblk.b_bno = SBSECTOR

theorem Placed.bno_nonneg (h : Placed super s) : 0 ≤ s.sblk.b_bno := by
  rcases h.bno with hb | hb <;> rw [hb]
  · exact Int.tdiv_nonneg h.super_nonneg (by decide)
  · decide

/-- Flags of the buffers do not matter. -/
theorem Placed.flags (h : Placed super s) {sblk asblk : BufArea} {sblock img aimg : SbImage}
    {pool : ℕ → BufArea} (hs : sblk.b_bno = s.sblk.b_bno) (ha : asblk.b_bno = s.asblk.b_bno)
    (hp : ∀ n, (pool n).b_bno = (s.pool n).b_bno) (hcount : sblock.gdbcount = s.sblock.gdbcount)
    (hsector : ∀ i, sblock.gdSector i = s.sblock.gdSector i) :
    Placed super { s with sblk, asblk, sblock, img, aimg, pool } where
  super_nonneg := h.super_nonneg
  havesb := h.havesb
  sblk := h.sblk
  bno := by
    show sblk.b_bno = _ ∨ sblk.b_bno = _
    rw [hs]
    exact h.bno
  alt := by
    show asblk.b_bno < 0 ∨ _ = some asblk.b_bno
    rw [ha]
    exact h.alt
  gd i hi := by
    show _ = some (sblock.gdSector i)
    rw [hsector]
    exact h.gd i (hcount ▸ hi)
  pool n := by
    show (pool n).b_bno < 0 ∨ _ = some (pool n).b_bno
    rw [hp]
    exact h.pool n

/-- A write of another buffer than that of the superblock. -/
theorem bwrite_elsewhere {b : Buf} {bno : ℤ} {img : Option SbImage} {t : St} (hb : b ≠ .sblk)
    (hplaced : Placed super t) (hsblk : t.sblk.b_bno = s.sblk.b_bno) (hsblock : t.sblock = s.sblock)
    (hlog : t.log = s.log) (hread : bno < 0 ∨ lastRead b s.log = some bno) :
    Placed super (bwrite env b bno img t) ∧ (bwrite env b bno img t).sblk.b_bno = s.sblk.b_bno ∧
      (bwrite env b bno img t).sblock = s.sblock ∧
      (InPlace (bwrite env b bno img t).log ↔
        (b = .sblk → s.sblk.b_dirty = true → env.writable = true → AtHome super s) ∧
          InPlace s.log) := by
  have hwrite : SameVars (bwrite env b bno img t) t := bwrite_same env t
  refine ⟨hplaced.same hwrite, hwrite.sblk ▸ hsblk, hwrite.sblock.trans hsblock, ?_⟩
  rw [bwrite_inPlace, hlog]
  apply and_congr_left
  intro _
  exact ⟨fun _ hc => absurd hc hb, fun _ hw => .inl (hread.resolve_left (not_lt.2 hw.2))⟩

/-- The superblock is written, and the descriptors behind it. -/
theorem flush_superblock (h : Placed super s) (hd : s.sblk.b_dirty = true) :
    Placed super (flush env .sblk s) ∧ (flush env .sblk s).sblk.b_bno = s.sblk.b_bno ∧
      (flush env .sblk s).sblock = s.sblock ∧
      (InPlace (flush env .sblk s).log ↔ (env.writable = true → AtHome super s) ∧ InPlace s.log) := by
  unfold flush
  dsimp only
  rw [if_pos hd]
  generalize ht : ({ s with sblk := s.sblk.flushed } : St) = t
  have hplaced : Placed super t := by
    rw [← ht]
    exact h.flags rfl rfl (fun _ => rfl) rfl fun _ => rfl
  have htb : t.sblk.b_bno = s.sblk.b_bno := by
    rw [← ht]
    rfl
  have htl : t.log = s.log := by rw [← ht]
  have hts : t.sblock = s.sblock := by rw [← ht]
  have hwrite : SameVars (bwrite env .sblk s.sblk.b_bno (some s.img) t) t := bwrite_same env t
  have hplaced' := hplaced.same hwrite
  obtain ⟨hgds, hin⟩ := bwriteGds_spec env t.sblock (List.range t.sblock.gdbcount)
    (bwrite env .sblk s.sblk.b_bno (some s.img) t) fun i hi => by
      rw [← hwrite.sblock]
      exact hplaced'.gd i (hwrite.sblock ▸ List.mem_range.1 hi)
  unfold bwriteGd
  rw [hwrite.sblock]
  refine ⟨hplaced'.same hgds, ?_, ?_, ?_⟩
  · rw [hgds.sblk, hwrite.sblk, htb]
  · rw [hgds.sblock, hwrite.sblock, hts]
  · rw [hin, bwrite_inPlace, htl, h.sblk]
    apply and_congr_left
    intro _
    have hnonneg := h.bno_nonneg
    constructor
    · intro hx hw
      rcases hx ⟨hw, hnonneg⟩ with heq | ⟨-, heq⟩
      · exact .inl (Option.some.inj heq).symm
      · exact .inr heq
    · intro hx hw
      rcases hx hw.1 with heq | heq
      · exact .inl (heq ▸ rfl)
      · exact .inr ⟨rfl, heq⟩

/-- **What a flush does.**  Everything stays where it belongs, and the write is in place unless it is one
of the superblock away from home. -/
theorem flush_spec (h : Placed super s) (b : Buf) :
    Placed super (flush env b s) ∧ (flush env b s).sblk.b_bno = s.sblk.b_bno ∧
      (flush env b s).sblock = s.sblock ∧
      (InPlace (flush env b s).log ↔
        (b = .sblk → s.sblk.b_dirty = true → env.writable = true → AtHome super s) ∧
          InPlace s.log) := by
  cases b with
  | sblk =>
    by_cases hd : s.sblk.b_dirty = true
    · obtain ⟨hplaced, hbno, hsblock, hin⟩ := flush_superblock env h hd
      refine ⟨hplaced, hbno, hsblock, hin.trans (and_congr_left fun _ => ?_)⟩
      exact ⟨fun hx _ _ => hx, fun hx => hx rfl hd⟩
    · unfold flush
      dsimp only
      rw [if_neg hd]
      exact ⟨h, rfl, rfl, fun hx => ⟨fun _ hc => absurd hc hd, hx⟩, And.right⟩
  | asblk =>
    unfold flush
    dsimp only
    by_cases hd : s.asblk.b_dirty = true
    · rw [if_pos hd]
      exact bwrite_elsewhere env Buf.noConfusion (h.flags rfl rfl (fun _ => rfl) rfl fun _ => rfl) rfl rfl rfl h.alt
    · rw [if_neg hd]
      exact ⟨h, rfl, rfl, fun hx => ⟨fun hc => absurd hc Buf.noConfusion, hx⟩, And.right⟩
  | pool n =>
    unfold flush
    dsimp only
    by_cases hd : (s.pool n).b_dirty = true
    · rw [if_pos hd]
      refine bwrite_elsewhere env Buf.noConfusion (h.flags rfl rfl (fun m => ?_) rfl fun _ => rfl) rfl rfl rfl (h.pool n)
      by_cases hm : m = n
      · rw [hm, Function.update_self]
        rfl
      · rw [Function.update_of_ne hm]
    · rw [if_neg hd]
      exact ⟨h, rfl, rfl, fun hx => ⟨fun hc => absurd hc Buf.noConfusion, hx⟩, And.right⟩
  | gd i => exact ⟨h, rfl, rfl, fun hx => ⟨fun hc => absurd hc Buf.noConfusion, hx⟩, And.right⟩

/-- A flush of another buffer leaves that of the superblock alone. -/
theorem flush_sblk (s : St) (hb : b ≠ .sblk) : (flush env b s).sblk = s.sblk := by
  unfold flush
  cases b with
  | sblk => exact absurd rfl hb
  | asblk => dsimp only; split <;> [exact (bwrite_same env _).sblk; rfl]
  | pool n => dsimp only; split <;> [exact (bwrite_same env _).sblk; rfl]
  | gd i => rfl

/-- Without the flag nothing is written. -/
theorem flush_clean (hd : s.sblk.b_dirty = false) : flush env .sblk s = s := by
  unfold flush
  dsimp only
  rw [hd]
  rfl

theorem sbdirty_placed (h : Placed super s) : Placed super (sbdirty s) :=
  h.flags rfl rfl (fun _ => rfl) rfl fun _ => rfl

/-! ### The passes -/

/-- `setlarge` changes the flag and nothing that says where blocks are. -/
theorem setlarge_spec (h : Placed super s) (set : Bool) :
    Placed super (setlarge env set s) ∧ (setlarge env set s).sblk.b_bno = s.sblk.b_bno ∧
      (setlarge env set s).log = s.log := by
  unfold setlarge
  split_ifs
  · exact ⟨h, rfl, rfl⟩
  · exact ⟨h, rfl, rfl⟩
  · exact ⟨h.flags rfl rfl (fun _ => rfl) rfl fun _ => rfl, rfl, rfl⟩
  · exact ⟨h, rfl, rfl⟩

/-- A buffer of the pool is read for another block. -/
theorem getblk_spec (h : Placed super s) (n : ℕ) (dblk : ℤ) :
    Placed super (getblk env n dblk s) ∧ (getblk env n dblk s).sblk.b_bno = s.sblk.b_bno ∧
      (InPlace (getblk env n dblk s).log ↔ InPlace s.log) := by
  unfold getblk
  split
  · exact ⟨h, rfl, Iff.rfl⟩
  obtain ⟨hf, hbno, -, hin⟩ := flush_spec env h (.pool n)
  have hread : ∀ b, b ≠ .pool n →
      lastRead b (.read (.pool n) dblk :: (flush env (.pool n) s).log) =
        lastRead b (flush env (.pool n) s).log := fun b hb => if_neg (Ne.symm hb)
  refine ⟨⟨hf.super_nonneg, hf.havesb, ?_, hf.bno, ?_, fun i hi => ?_, fun m => ?_⟩, hbno,
    hin.trans (and_iff_right fun hc => absurd hc Buf.noConfusion)⟩
  · exact (hread _ Buf.noConfusion).trans hf.sblk
  · exact hf.alt.imp_right (hread _ Buf.noConfusion).trans
  · exact (hread _ Buf.noConfusion).trans (hf.gd i hi)
  · show ReadFrom (.read (.pool n) dblk :: (flush env (.pool n) s).log) (.pool m)
      (Function.update (flush env (.pool n) s).pool n _ m)
    by_cases hm : m = n
    · subst hm
      rw [Function.update_self]
      exact .inr (if_pos rfl)
    · rw [Function.update_of_ne hm]
      exact (hf.pool m).imp_right (hread _ fun hc => hm (Buf.pool.inj hc)).trans

/-- **One step** writes in place, unless it flushes the superblock away from home. -/
theorem step_spec (h : Placed super s) (a : Step) :
    Placed super (step env s a) ∧ (step env s a).sblk.b_bno = s.sblk.b_bno ∧
      (InPlace (step env s a).log ↔
        (a = .flush .sblk → s.sblk.b_dirty = true → env.writable = true → AtHome super s) ∧
          InPlace s.log) := by
  have quiet : ∀ {s' : St}, (InPlace s'.log ↔ InPlace s.log) → a ≠ .flush .sblk →
      (InPlace s'.log ↔
        (a = .flush .sblk → s.sblk.b_dirty = true → env.writable = true → AtHome super s) ∧
          InPlace s.log) := fun hs ha => hs.trans (and_iff_right fun hc => absurd hc ha).symm
  cases a with
  | inosize size set =>
    show Placed super (if _ then _ else _) ∧ (ite _ _ _ : St).sblk.b_bno = _ ∧
      (InPlace (ite _ _ _ : St).log ↔ _)
    split
    · obtain ⟨hp, hb, hl⟩ := setlarge_spec env h set
      exact ⟨hp, hb, quiet (by rw [hl]) Step.noConfusion⟩
    · exact ⟨h, rfl, quiet Iff.rfl Step.noConfusion⟩
  | altered => exact ⟨sbdirty_placed h, rfl, quiet Iff.rfl Step.noConfusion⟩
  | totals nbfree nifree fix =>
    show Placed super (if _ then _ else _) ∧ (ite _ _ _ : St).sblk.b_bno = _ ∧
      (InPlace (ite _ _ _ : St).log ↔ _)
    split
    · exact ⟨h.flags rfl rfl (fun _ => rfl) rfl fun _ => rfl, rfl, quiet Iff.rfl Step.noConfusion⟩
    · exact ⟨h, rfl, quiet Iff.rfl Step.noConfusion⟩
  | dirty n =>
    refine ⟨h.flags rfl rfl (fun m => ?_) rfl fun _ => rfl, rfl, quiet Iff.rfl Step.noConfusion⟩
    by_cases hm : m = n
    · rw [hm, Function.update_self]
    · rw [Function.update_of_ne hm]
  | getblk n dblk =>
    obtain ⟨hp, hb, hin⟩ := getblk_spec env h n dblk
    exact ⟨hp, hb, quiet hin Step.noConfusion⟩
  | flush b =>
    obtain ⟨hp, hb, -, hin⟩ := flush_spec env h b
    refine ⟨hp, hb, hin.trans (and_congr_left fun _ => ?_)⟩
    exact ⟨fun hx hc => hx (Step.flush.inj hc), fun hx hc => hx (hc ▸ rfl)⟩

/-- No step flushes the superblock while it is dirty. -/
def Quiet : List Step → St → Prop
  | [], _ => True
  | a :: as, s => (a = .flush .sblk → s.sblk.b_dirty = false) ∧ Quiet as (step env s a)

/-- **The steps of a run.** -/
theorem steps_spec (h : Placed super s) (as : List Step) :
    Placed super (as.foldl (step env) s) ∧ (as.foldl (step env) s).sblk.b_bno = s.sblk.b_bno ∧
      (InPlace (as.foldl (step env) s).log ↔
        (env.writable = false ∨ AtHome super s ∨ Quiet env as s) ∧ InPlace s.log) := by
  induction as generalizing s with
  | nil => exact ⟨h, rfl, (and_iff_right (.inr (.inr trivial))).symm⟩
  | cons a as ih =>
    obtain ⟨hp, hb, hin⟩ := step_spec env h a
    obtain ⟨ihp, ihb, ihin⟩ := ih hp
    refine ⟨ihp, ihb.trans hb, ?_⟩
    have hhome : AtHome super (step env s a) ↔ AtHome super s := by
      unfold AtHome
      rw [hb]
    show InPlace (as.foldl (step env) (step env s a)).log ↔ (_ ∨ _ ∨ _ ∧ _) ∧ _
    rw [ihin, hin, hhome, ← and_assoc]
    apply and_congr_left
    intro _
    cases env.writable
    · simp
    · cases hd : s.sblk.b_dirty <;> by_cases ha : a = .flush .sblk <;>
        by_cases hx : AtHome super s <;> simp [ha, hx]

/-! ### The end of a run -/

/-- The standard superblocks are updated in place, and from then on the superblock is at home. -/
theorem updateStandard_spec (h : Placed super s) (update : Bool) :
    Placed super (updateStandard env update s) ∧
      (updateStandard env update s).sblock = s.sblock ∧
      (AtHome super (updateStandard env update s) ↔
        AtHome super s ∨ env.preen = false ∧ update = true) ∧
      (InPlace (updateStandard env update s).log ↔ InPlace s.log) := by
  unfold updateStandard
  by_cases hcond : s.havesb = true ∧ s.sblk.b_bno ≠ SBSECTOR ∧ (!env.preen) = true ∧ update = true
  · rw [if_pos hcond]
    generalize ht : sbdirty { s with sblk := { s.sblk with b_bno := SBSECTOR } } = t
    have htb : t.sblk.b_bno = SBSECTOR := by
      rw [← ht]
      rfl
    have htp : Placed super t := by
      rw [← ht]
      exact ⟨h.super_nonneg, h.havesb, h.sblk, .inr rfl, h.alt, h.gd, h.pool⟩
    obtain ⟨h1, hb1, hs1, hin1⟩ := flush_spec env htp .sblk
    dsimp only
    generalize flush env .sblk t = u at h1 hb1 hs1 hin1
    generalize hw : ({ u with aimg := copybackSb u.aimg u.sblock
                              asblk := { u.asblk with b_dirty := true } } : St) = w
    have hwp : Placed super w := by
      rw [← hw]
      exact h1.flags rfl rfl (fun _ => rfl) rfl fun _ => rfl
    obtain ⟨h2, hb2, hs2, hin2⟩ := flush_spec env hwp .asblk
    have hwb : w.sblk.b_bno = SBSECTOR := by
      rw [← hw]
      exact hb1.trans htb
    refine ⟨h2, ?_, ?_, ?_⟩
    · rw [hs2, ← hw, hs1, ← ht]
      rfl
    · refine iff_of_true (.inr (hb2.trans hwb)) (.inr ⟨?_, hcond.2.2.2⟩)
      simpa using hcond.2.2.1
    · rw [hin2, ← hw]
      show _ ∧ InPlace u.log ↔ _
      rw [hin1, and_iff_right fun hc => absurd hc Buf.noConfusion,
        and_iff_right fun _ _ _ => .inr htb, ← ht]
      rfl
  · rw [if_neg hcond]
    refine ⟨h, rfl, ⟨.inl, ?_⟩, Iff.rfl⟩
    rintro (hx | ⟨hpre, hup⟩)
    · exact hx
    · by_contra haway
      exact hcond ⟨h.havesb, fun hc => haway (.inr hc), by rw [hpre]; rfl, hup⟩

/-- The pool is written in place. -/
theorem flushPool_spec (h : Placed super s) (ns : List ℕ) :
    Placed super (ns.foldl (fun s n => flush env (.pool n) s) s) ∧
      (ns.foldl (fun s n => flush env (.pool n) s) s).sblk.b_bno = s.sblk.b_bno ∧
      (ns.foldl (fun s n => flush env (.pool n) s) s).sblock = s.sblock ∧
      (InPlace (ns.foldl (fun s n => flush env (.pool n) s) s).log ↔ InPlace s.log) := by
  induction ns generalizing s with
  | nil => exact ⟨h, rfl, rfl, Iff.rfl⟩
  | cons n ns ih =>
    obtain ⟨hp, hb, hs, hin⟩ := flush_spec env h (.pool n)
    obtain ⟨ihp, ihb, ihs, ihin⟩ := ih hp
    exact ⟨ihp, ihb.trans hb, ihs.trans hs,
      ihin.trans (hin.trans (and_iff_right fun hc => absurd hc Buf.noConfusion))⟩

/-- The volume is marked clean in place, if the superblock is at home. -/
theorem markClean_spec (h : Placed super s) (mark : Bool) (hw : env.writable = true) :
    InPlace (markClean env mark s).log ↔
      (s.sblock.e2fs_state &&& E2FS_ISCLEAN = 0 → (env.preen = true ∨ mark = true) →
        AtHome super s) ∧ InPlace s.log := by
  unfold markClean
  by_cases hcond : s.sblock.e2fs_state &&& E2FS_ISCLEAN = 0 ∧ (env.preen = true ∨ mark = true)
  · rw [if_pos hcond]
    generalize ht : sbdirty
      { s with sblock := { s.sblock with e2fs_state := E2FS_ISCLEAN } } = t
    have htp : Placed super t := by
      rw [← ht]
      exact h.flags rfl rfl (fun _ => rfl) rfl fun _ => rfl
    rw [(flush_spec env htp .sblk).2.2.2, ← ht]
    show (_ → _ → _ → AtHome super s) ∧ InPlace s.log ↔ _
    apply and_congr_left
    intro _
    exact ⟨fun hx _ _ => hx rfl rfl hw, fun hx _ _ _ => hx hcond.1 hcond.2⟩
  · rw [if_neg hcond]
    exact ⟨fun hx => ⟨fun h1 h2 => absurd ⟨h1, h2⟩ hcond, hx⟩, And.right⟩

/-- **What `ckfini` does.**  The writes are in place if the superblock is at home; else it must not be
dirty, and the volume is not marked clean without an update of the standard superblocks. -/
theorem ckfini_spec (h : Placed super s) (markclean : Bool) (f : Fini) :
    InPlace (ckfini env markclean f s).log ↔
      (env.writable = false ∨ AtHome super s ∨ s.sblk.b_dirty = false ∧
        (markclean = true → s.sblock.e2fs_state &&& E2FS_ISCLEAN = 0 →
          (env.preen = true ∨ f.mark = true) → env.preen = false ∧ f.update = true)) ∧
        InPlace s.log := by
  unfold ckfini
  by_cases hw : env.writable = true
  swap
  · rw [if_neg hw]
    exact (and_iff_right (.inl (by simpa using hw))).symm
  rw [if_pos hw]
  obtain ⟨h1, hb1, hs1, hin1⟩ := flush_spec env h .sblk
  obtain ⟨h2, hs2, hhome2, hin2⟩ := updateStandard_spec env h1 f.update
  obtain ⟨h3, hb3, hs3, hin3⟩ := flushPool_spec env h2 (List.range env.nbufs)
  have hhome1 : AtHome super (flush env .sblk s) ↔ AtHome super s := by
    unfold AtHome
    rw [hb1]
  dsimp only
  generalize ht : (List.range env.nbufs).foldl (fun s n => flush env (.pool n) s)
    (updateStandard env f.update (flush env .sblk s)) = t at h3 hb3 hs3 hin3
  have hhome3 : AtHome super t ↔ AtHome super s ∨ env.preen = false ∧ f.update = true := by
    rw [← hhome1, ← hhome2]
    unfold AtHome
    rw [hb3]
  have hlog : InPlace t.log ↔ (s.sblk.b_dirty = true → AtHome super s) ∧ InPlace s.log := by
    rw [hin3, hin2, hin1]
    apply and_congr_left
    intro _
    exact ⟨fun hx hd => hx rfl hd hw, fun hx _ hd _ => hx hd⟩
  have hstate : t.sblock = s.sblock := by rw [hs3, hs2, hs1]
  cases markclean with
  | false =>
    rw [if_neg Bool.false_ne_true, hlog]
    apply and_congr_left
    intro _
    cases hd : s.sblk.b_dirty <;> simp [hw]
  | true =>
    rw [if_pos rfl, markClean_spec env h3 f.mark hw, hlog, hstate, hhome3, ← and_assoc]
    apply and_congr_left
    intro _
    by_cases hx : AtHome super s <;> cases hd : s.sblk.b_dirty <;> simp [hw, hx]

/-! ### `setup` -/

/-- While the superblock is looked for, nothing is dirty. -/
structure Reading (s : St) : Prop where
  log : InPlace s.log
  alt : ReadFrom s.log .asblk s.asblk
  clean : s.asblk.b_dirty = false
  pool : ∀ n, s.pool n = .init

/-- The superblock has been taken. -/
structure Taken (s : St) : Prop extends Reading s where
  super_nonneg : 0 ≤ s.super
  havesb : s.havesb = true
  sblk : lastRead .sblk s.log = some s.super
  bno : s.sblk.b_bno = s.super.tdiv DEV_BSIZE

theorem init_reading (fs : SbImage) : Reading (St.init env fs) :=
  ⟨trivial, .inl (show (-1 : ℤ) < 0 by decide), rfl, fun _ => rfl⟩

/-- The first alternate is read at the address that its buffer gets. -/
theorem getblkAlt_spec (h : Reading s) (dblk : ℤ) :
    Reading (getblkAlt env dblk s) ∧ (getblkAlt env dblk s).bflag = s.bflag ∧
      (getblkAlt env dblk s).sblk = s.sblk ∧
      lastRead .sblk (getblkAlt env dblk s).log = lastRead .sblk s.log := by
  have hflush : flush env .asblk s = s := by
    unfold flush
    dsimp only
    rw [h.clean]
    rfl
  unfold getblkAlt
  split
  · exact ⟨h, rfl, rfl, rfl⟩
  · dsimp only
    rw [hflush]
    exact ⟨⟨h.log, .inr (if_pos rfl), h.clean, h.pool⟩, rfl, rfl, if_neg Buf.noConfusion⟩

/-- What looking at one sector comes to: the search goes on, or the superblock is taken. -/
def Looked (s : St) (r : Bool × St) : Prop :=
  Reading r.2 ∧ r.2.bflag = s.bflag ∧ (r.1 = true → Taken r.2)

theorem Looked.refused (h : Reading s') (hb : s'.bflag = s.bflag) : Looked s (false, s') :=
  ⟨h, hb, fun hc => absurd hc Bool.false_ne_true⟩

theorem Looked.taken (h : Reading s') (hb : s'.bflag = s.bflag) (hn : 0 ≤ s.super)
    (hl : lastRead .sblk s'.log = some s.super) (hno : s'.sblk.b_bno = s.super.tdiv DEV_BSIZE) :
    Looked s (true, { s' with havesb := true }) := by
  have hs : ({ s' with havesb := true } : St).super = s.super := by
    unfold St.super
    rw [hb]
  refine ⟨⟨h.log, h.alt, h.clean, h.pool⟩, hb,
    fun _ => ⟨⟨h.log, h.alt, h.clean, h.pool⟩, ?_, rfl, ?_, ?_⟩⟩
  · exact hs ▸ hn
  · exact hs ▸ hl
  · exact hs ▸ hno

theorem compareAlternate_spec (h : Reading s) (hn : 0 ≤ s.super)
    (hl : lastRead .sblk s.log = some s.super) (hno : s.sblk.b_bno = s.super.tdiv DEV_BSIZE) :
    Looked s (compareAlternate env s) := by
  obtain ⟨hr, hb, hs, hlast⟩ := getblkAlt_spec env h s.sblock.altSector
  unfold compareAlternate
  dsimp only
  generalize getblkAlt env s.sblock.altSector s = t at *
  have hmask : Reading { t with aimg := maskAlternate t.aimg t.img } :=
    ⟨hr.log, hr.alt, hr.clean, hr.pool⟩
  have hno' : t.sblk.b_bno = s.super.tdiv DEV_BSIZE := by rw [hs, hno]
  split_ifs
  · exact .taken h rfl hn hl hno
  · exact .refused hr hb
  · exact .taken hr hb hn (hlast.trans hl) hno'
  · exact .refused hmask hb
  · exact .refused hmask hb
  · exact .taken hmask hb hn (hlast.trans hl) hno'

/-- **`readsb`** goes on looking, or takes the superblock of the sector it was told. -/
theorem readsb_spec (h : Reading s) : Looked s (readsb env s) := by
  unfold readsb
  cases hread : breadSb env s.super with
  | none => exact .refused h rfl
  | some img =>
    have hnonneg : 0 ≤ s.super := by
      unfold breadSb at hread
      by_contra hneg
      rw [if_neg hneg] at hread
      cases hread
    have halt : ReadFrom (s.load img).log .asblk s.asblk :=
      h.alt.imp_right fun ha => (if_neg Buf.noConfusion).trans ha
    have hlast : lastRead .sblk (s.load img).log = some s.super := if_pos rfl
    dsimp only
    split
    · exact .refused ⟨h.log, halt, h.clean, h.pool⟩ rfl
    · exact compareAlternate_spec env ⟨h.log, halt, h.clean, h.pool⟩ hnonneg hlast rfl

theorem tryAlternates_spec (h : Reading s) (sectors : List ℤ)
    (hok : (tryAlternates env sectors s).1 = true) : Taken (tryAlternates env sectors s).2 := by
  induction sectors generalizing s with
  | nil => exact absurd hok Bool.false_ne_true
  | cons sector sectors ih =>
    have hs : Reading { s with bflag := sector } := ⟨h.log, h.alt, h.clean, h.pool⟩
    obtain ⟨hr, -, htaken⟩ := readsb_spec env hs
    unfold tryAlternates at hok ⊢
    dsimp only at hok ⊢
    split at hok
    next hfound =>
      rw [if_pos hfound]
      exact htaken hfound
    next hfound =>
      rw [if_neg hfound]
      exact ih hr hok

/-- What the checker is left with when the superblock has been corrected. -/
structure Fixed (s : St) : Prop where
  log : InPlace s.log
  alt : ReadFrom s.log .asblk s.asblk
  pool : ∀ n, s.pool n = .init
  super_nonneg : 0 ≤ s.super
  havesb : s.havesb = true
  sblk : lastRead .sblk s.log = some s.super
  bno : s.sblk.b_bno = s.super.tdiv DEV_BSIZE

theorem fixReserved_spec (h : Taken s) (hfix : fixReserved env s = some s') : Fixed s' := by
  unfold fixReserved at hfix
  have hkeep : Fixed s :=
    ⟨h.log, h.alt, h.pool, h.super_nonneg, h.havesb, h.sblk, h.bno⟩
  split_ifs at hfix <;> cases hfix
  · exact hkeep
  · exact ⟨h.log, h.alt, h.pool, h.super_nonneg, h.havesb, h.sblk, h.bno⟩
  · exact hkeep

/-- The copy of the alternate is written in place. -/
theorem writeAlt_spec (h : Fixed s) : Fixed (writeAlt env s) := by
  unfold writeAlt
  split
  swap
  · exact h
  unfold flush
  dsimp only
  split
  swap
  · exact ⟨h.log, h.alt, h.pool, h.super_nonneg, h.havesb, h.sblk, h.bno⟩
  generalize ht : ({ s with aimg := copybackSb s.aimg s.sblock, asblk := s.asblk.flushed } : St) = t
  have hwrite : SameVars (bwrite env .asblk s.asblk.b_bno (some (copybackSb s.aimg s.sblock)) t) t :=
    bwrite_same env t
  have hsuper : (bwrite env .asblk s.asblk.b_bno (some (copybackSb s.aimg s.sblock)) t).super =
      s.super := by
    unfold St.super
    rw [hwrite.bflag, ← ht]
  have hread : ∀ b, lastRead b t.log = lastRead b s.log := fun b => by rw [← ht]
  refine ⟨?_, ?_, fun n => ?_, hsuper ▸ h.super_nonneg, ?_, ?_, ?_⟩
  · rw [bwrite_inPlace, ← ht]
    exact ⟨fun hw => .inl (h.alt.resolve_left (not_lt.2 hw.2)), h.log⟩
  · unfold ReadFrom
    rw [hwrite.asblk, hwrite.lastRead, hread, ← ht]
    exact h.alt
  · rw [hwrite.pool, ← ht]
    exact h.pool n
  · rw [hwrite.havesb, ← ht]
    exact h.havesb
  · rw [hwrite.lastRead, hread, hsuper]
    exact h.sblk
  · rw [hwrite.sblk, hsuper, ← ht]
    exact h.bno

/-- The reads of the descriptor table. -/
theorem readGd_log (fs : SbImage) (n : ℕ) (log : List Io) :
    let add := fun (log : List Io) (i : ℕ) => Io.read (.gd i) (fs.gdSector i) :: log
    (InPlace ((List.range n).foldl add log) ↔ InPlace log) ∧
      (∀ i < n, lastRead (.gd i) ((List.range n).foldl add log) = some (fs.gdSector i)) ∧
      ∀ b, (∀ i, b ≠ .gd i) → lastRead b ((List.range n).foldl add log) = lastRead b log := by
  intro add
  induction n with
  | zero => exact ⟨Iff.rfl, fun i hi => absurd hi (Nat.not_lt_zero i), fun _ _ => rfl⟩
  | succ n ih =>
    obtain ⟨h1, h2, h3⟩ := ih
    rw [List.range_succ, List.foldl_append]
    refine ⟨h1, fun i hi => ?_, fun b hb => ?_⟩
    · show (if Buf.gd n = Buf.gd i then _ else _) = _
      by_cases hn : n = i
      · rw [hn, if_pos rfl]
      · rw [if_neg fun hc => hn (Buf.gd.inj hc)]
        exact h2 i (by omega)
    · show (if Buf.gd n = b then _ else _) = _
      rw [if_neg fun hc => hb n hc.symm]
      exact h3 b hb

theorem readGd_spec (h : Fixed s) :
    Placed s.super (readGd s) ∧ (readGd s).sblk.b_bno = s.super.tdiv DEV_BSIZE ∧
      InPlace (readGd s).log := by
  obtain ⟨h1, h2, h3⟩ := readGd_log s.sblock s.sblock.gdbcount s.log
  have halt := h3 .asblk fun _ => Buf.noConfusion
  refine ⟨⟨h.super_nonneg, h.havesb, ?_, .inl h.bno, h.alt.imp_right halt.trans, h2,
    fun n => ?_⟩, h.bno, h1.2 h.log⟩
  · exact (h3 .sblk fun _ => Buf.noConfusion).trans h.sblk
  · left
    show (s.pool n).b_bno < 0
    rw [h.pool n]
    decide

theorem findSb_spec (h : Reading s) {r : St × Bool} (hr : findSb env s = some r) : Taken r.1 := by
  obtain ⟨hread, -, htaken⟩ := readsb_spec env h
  unfold findSb at hr
  dsimp only at hr
  split_ifs at hr with hok
  · cases hr
    exact htaken hok
  · obtain ⟨blocks, -, hblocks⟩ := Option.bind_eq_some_iff.1 hr
    split_ifs at hblocks with hfound
    cases hblocks
    exact tryAlternates_spec env hread _ hfound

/-- **What `setup` leaves**: every buffer has the address it was read from, but the superblock that
address divided by the size of a sector. -/
theorem setup_spec {fs : SbImage} (h : setup env fs = some s) :
    Placed s.super s ∧ s.sblk.b_bno = s.super.tdiv DEV_BSIZE ∧ InPlace s.log := by
  unfold setup at h
  split_ifs at h
  obtain ⟨r, hr, h⟩ := Option.bind_eq_some_iff.1 h
  split_ifs at h
  obtain ⟨t, ht, h⟩ := Option.bind_eq_some_iff.1 h
  split_ifs at h
  cases h
  exact readGd_spec (writeAlt_spec env (fixReserved_spec env (findSb_spec env (init_reading env fs) hr) ht))

/-! ### Whole runs -/

theorem St.super_ne_zero (s : St) : s.super ≠ 0 := by
  unfold St.super
  split
  · assumption
  · decide

/-- What a quiet end is: nothing has made the superblock dirty, not even a write that makes
`checkfilesys` enter the times; and the volume is not marked clean, unless the standard superblocks are
updated first. -/
def QuietEnd (f : Fini) (s : St) : Prop :=
  s.sblk.b_dirty = false ∧ (f.done = true → s.fsmodified = false) ∧
    (f.done = true → s.sblock.e2fs_state &&& E2FS_ISCLEAN = 0 →
      (env.preen = true ∨ f.mark = true) → env.preen = false ∧ f.update = true)

/-- The times are entered. -/
theorem stamp_spec (h : Placed super s) (time : BitVec 32) :
    Placed super (stamp time s) ∧ (AtHome super (stamp time s) ↔ AtHome super s) ∧
      (stamp time s).log = s.log ∧
      (stamp time s).sblk.b_dirty = (s.fsmodified || s.sblk.b_dirty) ∧
      (stamp time s).sblock.e2fs_state = s.sblock.e2fs_state := by
  unfold stamp
  split
  next hmod =>
    refine ⟨h.flags rfl rfl (fun _ => rfl) rfl fun _ => rfl, Iff.rfl, rfl, ?_, rfl⟩
    rw [hmod]
    rfl
  next hmod =>
    refine ⟨h, Iff.rfl, rfl, ?_, rfl⟩
    rw [Bool.eq_false_iff.2 hmod]
    rfl

theorem finish_spec (h : Placed super s) (f : Option Fini) :
    InPlace (finish env f s).log ↔
      (env.writable = false ∨ AtHome super s ∨ ∀ g ∈ f, QuietEnd env g s) ∧ InPlace s.log := by
  cases f with
  | none => exact (and_iff_right (.inr (.inr fun _ hc => by cases hc))).symm
  | some f =>
    have hone : (∀ g ∈ some f, QuietEnd env g s) ↔ QuietEnd env f s := by simp
    rw [hone]
    show InPlace (if f.done = true then ckfini env true f (stamp f.time s)
      else ckfini env false f s).log ↔ _
    unfold QuietEnd
    cases f.done with
    | false =>
      rw [if_neg Bool.false_ne_true, ckfini_spec env h]
      simp only [Bool.false_eq_true, false_imp_iff, and_true]
    | true =>
      obtain ⟨hp, hhome, hlog, hdirty, hstate⟩ := stamp_spec h f.time
      rw [if_pos rfl, ckfini_spec env hp, hhome, hlog, hdirty, hstate, Bool.or_eq_false_iff,
        and_comm (a := s.fsmodified = false)]
      simp only [true_imp_iff, and_assoc]

/-- **The runs that write everything in place.**  Nothing can be written, or the sector of the superblock
divided by 512 is that of the primary; else the superblock is not dirty when it is flushed or when the
run ends, and the volume is not marked clean before the standard superblocks are updated. -/
theorem writes_inPlace_iff (fs : SbImage) (as : List Step) (f : Option Fini) :
    InPlace (checkfilesys env fs as f) ↔
      ∀ s, setup env fs = some s →
        env.writable = false ∨ s.super.tdiv DEV_BSIZE = SBSECTOR ∨
          Quiet env as s ∧ ∀ g ∈ f, QuietEnd env g (as.foldl (step env) s) := by
  unfold checkfilesys
  cases hsetup : setup env fs with
  | none => exact iff_of_true trivial fun s hs => by cases hs
  | some s =>
    obtain ⟨hp, hbno, hlog⟩ := setup_spec env hsetup
    obtain ⟨hp', hbno', hin⟩ := steps_spec env hp as
    have hhome : AtHome s.super s ↔ s.super.tdiv DEV_BSIZE = SBSECTOR := by
      unfold AtHome
      rw [hbno]
      refine or_iff_right fun hc => s.super_ne_zero ?_
      have hn := hp.super_nonneg
      unfold DEV_BSIZE at hc
      rw [Int.tdiv_eq_ediv_of_nonneg hn] at hc
      omega
    have hhome' : AtHome s.super (as.foldl (step env) s) ↔ AtHome s.super s := by
      unfold AtHome
      rw [hbno']
    show InPlace (finish env f (as.foldl (step env) s)).log ↔ _
    rw [finish_spec env hp', hin, hhome', hhome]
    constructor
    · rintro ⟨hend, hsteps, -⟩ s' hs'
      cases hs'
      tauto
    · intro h
      have hs := h s rfl
      exact ⟨by tauto, by tauto, hlog⟩

end

/-- A superblock of one group. -/
def oneGroup : SbImage where
  e2fs_icount := 64
  e2fs_bcount := 1024
  e2fs_rbcount := 0
  e2fs_first_dblock := 1
  e2fs_log_bsize := 0
  e2fs_log_fsize := 0
  e2fs_bpg := 8192
  e2fs_fpg := 8192
  e2fs_ipg := 64
  e2fs_magic := E2FS_MAGIC
  e2fs_rev := E2FS_REV1
  e2fs_first_ino := 11
  e2fs_inode_size := 128
  e2fs_features_incompat := EXT2F_INCOMPAT_FTYPE
  e2fs_features_rocompat := 0
  e3fs_desc_size := 0
  e2fs_fbcount := 900
  e2fs_ficount := 50
  e2fs_mtime := 0
  e2fs_wtime := 0
  e2fs_mnt_count := 0
  e2fs_max_mnt_count := 0
  e2fs_state := 0
  e2fs_beh := 0
  e2fs_lastfsck := 0
  e2fs_fsckintv := 0
  e2fs_creator := 0
  e2fs_ruid := 0
  e2fs_rgid := 0
  e2fs_block_group_nr := 0
  e2fs_fsmnt := []
  e4fs_kbytes_written := 0
  rest := []

/-- `fsck -p` of a volume with that superblock. -/
def preenOneGroup : Env where
  bflag := 0
  preen := true
  skipclean := true
  writable := true
  disk n := if n = 2 then some oneGroup else none
  devBlocks := some 1024
  lookForAlternates := false
  setToDefault := false
  nbufs := 5

/-- A preening run that finds nothing to change marks the volume clean in the boot sector. -/
theorem preen_bootSector :
    (.write .sblk 0 (some { oneGroup with e2fs_state := E2FS_ISCLEAN }) : Io) ∈
        checkfilesys preenOneGroup oneGroup [] (some ⟨true, 7, false, false⟩) ∧
      ¬InPlace (checkfilesys preenOneGroup oneGroup [] (some ⟨true, 7, false, false⟩)) := by
  decide +kernel

end Ext2fs.Fsck
