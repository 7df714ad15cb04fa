import Ext2fs.Fsck.Pass5Counts

/-!
# When `pass5` repairs a volume

Two buffers move from group to group, and are written when they move on.  What they hold at the end is
on the device where the descriptors have the bitmaps, if these blocks can be written, if no two
different bitmaps have one block, and if the two buffers are not one.

* `BitmapsPlaced` — the condition for the blocks;
* `pass5_disk_eq`, `pass5_disk_old` — what is on the device afterwards;
* **`pass5_iff`** — when `pass5` repairs a volume.
-/

namespace Ext2fs.Fsck

open WriteBack

/-! ### The condition for the blocks -/

/-- The sector of a block has a number in a `daddr32_t`, and the device takes it. -/
def GroupTable.Reaches (fs : SbImage) (v : GroupTable) (b : ℕ) : Prop :=
  fs.place b < 2 ^ 31 ∧ v.takes (fs.place b) = true

/-- The bitmaps can be written, those that share a block are the same, and there is one buffer for
both kinds only where no block bitmap has a block of its own. -/
structure BitmapsPlaced (fs : SbImage) (v : GroupTable) (blockmap : ℕ → Bool) (statemap : ℕ → InoState) :
    Prop where
  reaches : ∀ c < fs.gcount, v.Reaches fs (v.b_bitmap c) ∧ v.Reaches fs (v.i_bitmap c)
  blocks : ∀ c < fs.gcount, ∀ c' < fs.gcount, v.b_bitmap c' = v.b_bitmap c →
    fs.blockBits blockmap c' = fs.blockBits blockmap c
  inodes : ∀ c < fs.gcount, ∀ c' < fs.gcount, v.i_bitmap c' = v.i_bitmap c →
    fs.inodeBits statemap c' = fs.inodeBits statemap c
  both : ∀ c < fs.gcount, ∀ c' < fs.gcount, v.i_bitmap c' = v.b_bitmap c →
    fs.inodeBits statemap c' = fs.blockBits blockmap c
  one : v.b_bitmap 0 = v.i_bitmap 0 → ∀ c < fs.gcount, ∃ c' < fs.gcount, v.i_bitmap c' = v.b_bitmap c

section

variable {fs : SbImage} {v : GroupTable} {f : Found} {old : Before fs} {c : ℕ} {a : ℤ}

namespace SbImage

theorem place_nonneg (b : ℕ) : 0 ≤ fs.place b := by
  unfold place
  positivity

theorem place_inj {b b' : ℕ} (h : fs.place b = fs.place b') : b = b' := by
  unfold place at h
  have hpos : (0 : ℤ) < 2 ^ (fs.e2fs_log_bsize.toNat + 1) := by positivity
  exact_mod_cast mul_right_cancel₀ hpos.ne' h

theorem sector32_range (b : ℕ) : fs.sector32 b < 2 ^ 31 := by
  unfold sector32 i32
  split_ifs <;> omega

/-- Where a sector has a number in a `daddr32_t`, it is that of the block. -/
theorem sector_place {b : ℕ} (h : fs.place b < 2 ^ 31) :
    fs.sector64 b = fs.place b ∧ fs.sector32 b = fs.place b := by
  have hle : (b : ℤ) ≤ fs.place b := by
    unfold place
    have hone : (1 : ℤ) ≤ 2 ^ (fs.e2fs_log_bsize.toNat + 1) := one_le_pow₀ (by decide)
    nlinarith
  have hblk : i32 (b : ℤ) = b := i32_of_lt (by omega) (by omega)
  have h64 : fs.sector64 b = fs.place b := by
    unfold sector64 place
    rw [hblk]
  refine ⟨h64, ?_⟩
  unfold sector32
  rw [h64]
  have hpos := fs.place_nonneg b
  exact i32_of_lt (by omega) h

end SbImage

/-! ### The buffers in one group -/

/-- One buffer serves both kinds of bitmaps. -/
def Shared (fs : SbImage) (v : GroupTable) : Prop :=
  fs.sector32 (v.b_bitmap 0) = fs.sector64 (v.i_bitmap 0)

theorem get_addr {A D : Type} [DecidableEq A] {ok : A → Bool} {junk : D} (n : ℕ) (b : A)
    (s : Buffers A D) : ((s.get ok junk n b).buf n).addr = b := by
  unfold Buffers.get
  split
  case isTrue h => exact h
  case isFalse => simp

theorem get_other {A D : Type} [DecidableEq A] {ok : A → Bool} {junk : D} {n m : ℕ} (h : m ≠ n)
    (b : A) (s : Buffers A D) : (s.get ok junk n b).buf m = s.buf m := by
  unfold Buffers.get
  split
  · rfl
  simp only [Function.update_of_ne h]
  unfold Buffers.flush
  split
  · exact Function.update_of_ne h _ _
  · rfl

/-- The buffers after they moved to a group. -/
def moved (fs : SbImage) (v : GroupTable) (old : Before fs) (c : ℕ) (maps : Buffers ℤ fs.Bits) :
    Buffers ℤ fs.Bits :=
  (maps.get v.takes old.junk blkBitmap (fs.sector32 (v.b_bitmap c))).get v.takes old.junk
    (inoBitmap fs v) (fs.sector32 (v.i_bitmap c))

theorem fixBitmaps_eq (maps : Buffers ℤ fs.Bits) :
    fixBitmaps fs v f old c maps =
      ((moved fs v old c maps).put blkBitmap (fs.bbmap f c)).put (inoBitmap fs v)
        (fs.ibmap f.statemap c) := rfl

/-- **What is put in a group**: with two buffers both bitmaps, with one buffer the inode bitmap. -/
theorem fixBitmaps_stores (fs : SbImage) (v : GroupTable) (f : Found) (old : Before fs) (c : ℕ)
    (maps : Buffers ℤ fs.Bits) :
    (Shared fs v ∧ ((moved fs v old c maps).buf 0).addr = fs.sector32 (v.i_bitmap c) ∧
        Stores 0 (fs.ibmap f.statemap c) (moved fs v old c maps) (fixBitmaps fs v f old c maps)) ∨
      (¬Shared fs v ∧ ((moved fs v old c maps).buf 0).addr = fs.sector32 (v.b_bitmap c) ∧
        ((moved fs v old c maps).buf 1).addr = fs.sector32 (v.i_bitmap c) ∧
        ∃ mid, Stores 0 (fs.bbmap f c) (moved fs v old c maps) mid ∧
          Stores 1 (fs.ibmap f.statemap c) mid (fixBitmaps fs v f old c maps)) := by
  by_cases hs : Shared fs v
  · have hino : inoBitmap fs v = 0 := if_pos hs
    refine .inl ⟨hs, ?_, ?_⟩
    · unfold moved
      rw [hino]
      exact get_addr 0 _ _
    · rw [fixBitmaps_eq, hino]
      exact (put_stores 0 (fs.bbmap f c) (moved fs v old c maps)).trans
        (put_stores 0 (fs.ibmap f.statemap c) _)
  · have hino : inoBitmap fs v = 1 := if_neg hs
    refine .inr ⟨hs, ?_, ?_, _, put_stores 0 (fs.bbmap f c) (moved fs v old c maps), ?_⟩
    · unfold moved
      rw [hino, get_other (by decide)]
      exact get_addr 0 _ _
    · unfold moved
      rw [hino]
      exact get_addr 1 _ _
    · rw [fixBitmaps_eq, hino]
      exact put_stores 1 (fs.ibmap f.statemap c) _

/-- Something is put at an address in a group. -/
def Puts (fs : SbImage) (v : GroupTable) (c : ℕ) (a : ℤ) : Prop :=
  ¬Shared fs v ∧ fs.sector32 (v.b_bitmap c) = a ∨ fs.sector32 (v.i_bitmap c) = a

theorem fixBitmaps_spared {d : fs.Bits} {maps : Buffers ℤ fs.Bits} (h : Spared a d maps)
    (hno : ¬Puts fs v c a) : Spared a d (fixBitmaps fs v f old c maps) := by
  have hmoved : Spared a d (moved fs v old c maps) := (h.get _ _).get _ _
  obtain ⟨hb, hi⟩ := not_or.1 hno
  rcases fixBitmaps_stores fs v f old c maps with ⟨-, haddr, hput⟩ | ⟨hs, hb₀, hi₁, mid, hput₀, hput₁⟩
  · exact hmoved.stores hput (haddr ▸ hi)
  · have hmid := hmoved.stores hput₀ (hb₀ ▸ fun heq => hb ⟨hs, heq⟩)
    refine hmid.stores hput₁ ?_
    rw [hput₀.others 1 (by decide), hi₁]
    exact hi

theorem fixBitmaps_refused (ha : v.takes a = false) (maps : Buffers ℤ fs.Bits) :
    (fixBitmaps fs v f old c maps).disk a = maps.disk a := by
  have hmoved : (moved fs v old c maps).disk a = maps.disk a :=
    (get_refused ha _ _ _).trans (get_refused ha _ _ _)
  rcases fixBitmaps_stores fs v f old c maps with
    ⟨-, -, hput⟩ | ⟨-, -, -, mid, hput₀, hput₁⟩
  · rw [hput.disk, hmoved]
  · rw [hput₁.disk, hput₀.disk, hmoved]

theorem fixBitmaps_settled {d x : fs.Bits} {hit : Prop} {maps : Buffers ℤ fs.Bits}
    (hok : v.takes a = true) (h : Agreed [0, 1] a d x hit maps)
    (hb : ¬Shared fs v → fs.sector32 (v.b_bitmap c) = a → fs.bbmap f c = x)
    (hi : fs.sector32 (v.i_bitmap c) = a → fs.ibmap f.statemap c = x) :
    Agreed [0, 1] a d x (hit ∨ Puts fs v c a) (fixBitmaps fs v f old c maps) := by
  have hmoved : Agreed [0, 1] a d x hit (moved fs v old c maps) :=
    (h.get hok _ _).get hok _ _
  rcases fixBitmaps_stores fs v f old c maps with ⟨hs, haddr, hput⟩ | ⟨hs, hb₀, hi₁, mid, hput₀, hput₁⟩
  · refine (hmoved.stores (List.mem_cons_self ..) hput (haddr ▸ hi)).mono ?_
    rw [haddr]
    exact Or.imp_right fun hp => hp.resolve_left fun hc => hc.1 hs
  · have hmid := hmoved.stores (List.mem_cons_self ..) hput₀ (hb₀ ▸ hb hs)
    have hi₂ : (mid.buf 1).addr = fs.sector32 (v.i_bitmap c) := by
      rw [hput₀.others 1 (by decide), hi₁]
    refine (hmid.stores (by decide) hput₁ (hi₂ ▸ hi)).mono ?_
    rw [hb₀, hi₂]
    rintro (hh | hh | hh)
    · exact .inl (.inl hh)
    · exact .inl (.inr hh.2)
    · exact .inr hh

/-! ### The run over the groups -/

theorem pass5Loop_succ (fs : SbImage) (v : GroupTable) (f : Found) (old : Before fs) (n : ℕ) :
    pass5Loop fs v f old (n + 1) = groupRound fs v f old (pass5Loop fs v f old n) n := by
  unfold pass5Loop
  rw [List.range_succ, List.foldl_append, List.foldl_cons, List.foldl_nil]

theorem loop_spared (n : ℕ) (hno : ∀ c < n, ¬Puts fs v c a) :
    Spared a (old.disk a) (pass5Loop fs v f old n).maps := by
  induction n with
  | zero => exact ⟨rfl, fun _ _ => rfl⟩
  | succ n ih =>
    rw [pass5Loop_succ]
    exact fixBitmaps_spared (ih fun c hc => hno c (by omega)) (hno n (by omega))

theorem loop_refused (ha : v.takes a = false) (n : ℕ) :
    (pass5Loop fs v f old n).maps.disk a = old.disk a := by
  induction n with
  | zero => rfl
  | succ n ih =>
    rw [pass5Loop_succ]
    exact (fixBitmaps_refused ha _).trans ih

theorem loop_settled {x : fs.Bits} (hok : v.takes a = true) (n : ℕ)
    (hx : ∀ c < n, (¬Shared fs v → fs.sector32 (v.b_bitmap c) = a → fs.bbmap f c = x) ∧
      (fs.sector32 (v.i_bitmap c) = a → fs.ibmap f.statemap c = x)) :
    Agreed [0, 1] a (old.disk a) x (∃ c < n, Puts fs v c a) (pass5Loop fs v f old n).maps := by
  induction n with
  | zero =>
    have hne : (-1 : ℤ) ≠ a := fun heq => by
      rw [← heq, v.front (-1) (by decide)] at hok
      exact Bool.false_ne_true hok
    have hstart : Agreed [0, 1] a ((pass5Loop fs v f old 0).maps.disk a) x False
        (pass5Loop fs v f old 0).maps := Agreed.start fun _ => hne
    exact hstart.mono fun ⟨c, hc, _⟩ => absurd hc (Nat.not_lt_zero c)
  | succ n ih =>
    rw [pass5Loop_succ]
    obtain ⟨hb, hi⟩ := hx n (by omega)
    refine (fixBitmaps_settled hok (ih fun c hc => hx c (by omega)) hb hi).mono ?_
    rintro ⟨c, hc, hputs⟩
    rcases Nat.lt_succ_iff_lt_or_eq.1 hc with hlt | rfl
    · exact .inl ⟨c, hlt, hputs⟩
    · exact .inr hputs

/-- **What is not put anywhere** leaves the device as it was. -/
theorem pass5_disk_old (hno : v.takes a = false ∨ ∀ c < fs.gcount, ¬Puts fs v c a) :
    (pass5 fs v f old).disk a = old.disk a := by
  rcases hno with ha | hno
  · exact (flushAll_refused ha _ _).trans (loop_refused ha _)
  · exact (loop_spared fs.gcount hno).flushAll _

/-- **What is put at an address**, and nothing else there, is on the device. -/
theorem pass5_disk_eq {x : fs.Bits} (hok : v.takes a = true)
    (hx : ∀ c < fs.gcount, (¬Shared fs v → fs.sector32 (v.b_bitmap c) = a → fs.bbmap f c = x) ∧
      (fs.sector32 (v.i_bitmap c) = a → fs.ibmap f.statemap c = x))
    (hputs : ∃ c < fs.gcount, Puts fs v c a) : (pass5 fs v f old).disk a = x :=
  (loop_settled hok fs.gcount hx).flushAll hok hputs

/-- The descriptors afterwards. -/
theorem loop_gd (fs : SbImage) (v : GroupTable) (f : Found) (old : Before fs) (n c : ℕ) :
    (pass5Loop fs v f old n).gd c =
      if c < n then fixCounts (fs.blockMap f c).nbfree (fs.inodeMap f.statemap c).nifree
        (fs.inodeMap f.statemap c).ndirs (old.gd c)
      else old.gd c := by
  induction n with
  | zero => rfl
  | succ n ih =>
    rw [pass5Loop_succ]
    unfold groupRound
    dsimp only
    by_cases hc : c = n
    · subst hc
      rw [Function.update_self, ih, if_neg (by omega), if_pos (by omega)]
    · rw [Function.update_of_ne hc, ih]
      have hlt : c < n + 1 ↔ c < n := by omega
      simp only [hlt]

/-- The totals are added up in words. -/
theorem loop_nbfree (n : ℕ) :
    (pass5Loop fs v f old n).cs_nbfree =
      u32 (∑ c ∈ Finset.range n, (fs.blockMap f c).nbfree : ℕ) := by
  induction n with
  | zero => rfl
  | succ n ih =>
    rw [pass5Loop_succ, Finset.sum_range_succ]
    unfold groupRound
    dsimp only
    rw [ih]
    unfold u32
    omega

theorem loop_nifree (n : ℕ) :
    (pass5Loop fs v f old n).cs_nifree =
      u32 (∑ c ∈ Finset.range n, (fs.inodeMap f.statemap c).nifree : ℕ) := by
  induction n with
  | zero => rfl
  | succ n ih =>
    rw [pass5Loop_succ, Finset.sum_range_succ]
    unfold groupRound
    dsimp only
    rw [ih]
    unfold u32
    omega

theorem pass5_fbcount : (pass5 fs v f old).fbcount = (pass5Loop fs v f old fs.gcount).cs_nbfree := by
  unfold pass5
  dsimp only
  split
  case isTrue h => exact h.1
  case isFalse => rfl

theorem pass5_ficount : (pass5 fs v f old).ficount = (pass5Loop fs v f old fs.gcount).cs_nifree := by
  unfold pass5
  dsimp only
  split
  case isTrue h => exact h.2
  case isFalse => rfl

theorem pass5_gd (hc : c < fs.gcount) :
    (pass5 fs v f old).gd c = fixCounts (fs.blockMap f c).nbfree (fs.inodeMap f.statemap c).nifree
      (fs.inodeMap f.statemap c).ndirs (old.gd c) := by
  have hgd := loop_gd fs v f old fs.gcount c
  rw [if_pos hc] at hgd
  exact hgd

end

/-! ### The condition is enough -/

section

variable {fs : SbImage} {v : GroupTable} {blockmap : ℕ → Bool} {statemap : ℕ → InoState}

/-- The volumes that `pass5` repairs. -/
structure Repairable (fs : SbImage) (v : GroupTable) (blockmap : ℕ → Bool)
    (statemap : ℕ → InoState) : Prop where
  countable : Countable fs statemap
  placed : BitmapsPlaced fs v blockmap statemap

/-- A sum of as many numbers as there are groups. -/
theorem sum_le {n m : ℕ} {g : ℕ → ℕ} (hg : ∀ c, g c ≤ m) : ∑ c ∈ Finset.range n, g c ≤ n * m := by
  have hle := Finset.sum_le_card_nsmul (Finset.range n) g m fun c _ => hg c
  rwa [Finset.card_range, smul_eq_mul] at hle

theorem clear_le {n : ℕ} (map : Fin n → Bool) : clear map ≤ n := by
  have hle := List.countP_le_length (p := fun k => !map k) (l := List.finRange n)
  rwa [List.length_finRange] at hle

theorem Repairable.right (h : Repairable fs v blockmap statemap)
    (hsize : fs.bsize = 1024 ∨ fs.bsize = 2048 ∨ fs.bsize = 4096) :
    Pass5Right fs v blockmap statemap := by
  intro around old
  have hbits := bits_lt hsize
  have hbpg : fs.e2fs_bpg.toNat ≠ 0 := by
    rw [h.countable.bpg]
    omega
  have hlt := SbImage.blocks_lt hbpg h.countable.run
  set f : Found := ⟨blockmap, around, statemap⟩ with hf
  have hc : Countable fs f.statemap := h.countable
  have hplaced := h.placed
  have hb : ∀ c < fs.gcount, fs.sector64 (v.b_bitmap c) = fs.place (v.b_bitmap c) ∧
      fs.sector32 (v.b_bitmap c) = fs.place (v.b_bitmap c) := fun c hc =>
    SbImage.sector_place (hplaced.reaches c hc).1.1
  have hi : ∀ c < fs.gcount, fs.sector64 (v.i_bitmap c) = fs.place (v.i_bitmap c) ∧
      fs.sector32 (v.i_bitmap c) = fs.place (v.i_bitmap c) := fun c hc =>
    SbImage.sector_place (hplaced.reaches c hc).2.1
  have hwritten : ∀ c < fs.gcount,
      (pass5 fs v f old).disk (fs.place (v.b_bitmap c)) = fs.bbmap f c ∧
        (pass5 fs v f old).disk (fs.place (v.i_bitmap c)) = fs.ibmap f.statemap c := by
    intro c hlt
    rw [hc.bbmap hsize hlt, hc.ibmap hsize hlt]
    constructor
    · refine pass5_disk_eq (hplaced.reaches c hlt).1.2 (fun c' hlt' => ⟨fun _ heq => ?_, fun heq => ?_⟩)
        ?_
      · rw [(hb c' hlt').2] at heq
        rw [hc.bbmap hsize hlt']
        exact hplaced.blocks c hlt c' hlt' (SbImage.place_inj heq)
      · rw [(hi c' hlt').2] at heq
        rw [hc.ibmap hsize hlt']
        exact hplaced.both c hlt c' hlt' (SbImage.place_inj heq)
      · by_cases hs : Shared fs v
        · have h0 : 0 < fs.gcount := by omega
          have hs' := hs
          unfold Shared at hs'
          rw [(hb 0 h0).2, (hi 0 h0).1] at hs'
          obtain ⟨c', hlt', heq⟩ := hplaced.one (SbImage.place_inj hs') c hlt
          exact ⟨c', hlt', .inr (by rw [(hi c' hlt').2, heq])⟩
        · exact ⟨c, hlt, .inl ⟨hs, (hb c hlt).2⟩⟩
    · refine pass5_disk_eq (hplaced.reaches c hlt).2.2 (fun c' hlt' => ⟨fun _ heq => ?_, fun heq => ?_⟩)
        ⟨c, hlt, .inr (hi c hlt).2⟩
      · rw [(hb c' hlt').2] at heq
        rw [hc.bbmap hsize hlt']
        exact (hplaced.both c' hlt' c hlt (SbImage.place_inj heq).symm).symm
      · rw [(hi c' hlt').2] at heq
        rw [hc.ibmap hsize hlt']
        exact hplaced.inodes c hlt c' hlt' (SbImage.place_inj heq)
  have hgd : ∀ c < fs.gcount, (pass5 fs v f old).gd c =
      ⟨clear (fs.blockBits f.blockmap c), clear (fs.inodeBits f.statemap c),
        (List.range fs.e2fs_ipg.toNat).countP fun i => (f.statemap (fs.inodeOf c i)).isDir⟩ :=
    fun c hlt => (pass5_gd hlt).trans (hc.counts hsize hlt _)
  refine ⟨hwritten, fun c hlt => ?_, ?_, ?_⟩
  · rw [(hwritten c hlt).1, (hwritten c hlt).2, hgd c hlt, hc.bbmap hsize hlt, hc.ibmap hsize hlt]
    exact hc.group
  · rw [pass5_fbcount, loop_nbfree]
    have hsum : ∑ c ∈ Finset.range fs.gcount, (fs.blockMap f c).nbfree =
        ∑ c ∈ Finset.range fs.gcount, ((pass5 fs v f old).gd c).nbfree :=
      Finset.sum_congr rfl fun c hcm => by
        have hlt := Finset.mem_range.1 hcm
        rw [hgd c hlt]
        exact hc.nbfree hsize hlt
    rw [hsum, u32_of_lt]
    have hle : ∑ c ∈ Finset.range fs.gcount, ((pass5 fs v f old).gd c).nbfree =
        ∑ c ∈ Finset.range fs.gcount, clear (fs.blockBits f.blockmap c) :=
      Finset.sum_congr rfl fun c hcm => by rw [hgd c (Finset.mem_range.1 hcm)]
    rw [hle]
    refine (sum_le (m := fs.e2fs_bpg.toNat) fun c => ?_).trans_lt hlt
    rw [hc.bpg]
    exact clear_le _
  · rw [pass5_ficount, loop_nifree]
    have hsum : ∑ c ∈ Finset.range fs.gcount, (fs.inodeMap f.statemap c).nifree =
        ∑ c ∈ Finset.range fs.gcount, ((pass5 fs v f old).gd c).nifree :=
      Finset.sum_congr rfl fun c hcm => by
        have hlt := Finset.mem_range.1 hcm
        rw [hgd c hlt]
        exact hc.nifree hsize hlt
    rw [hsum, u32_of_lt]
    have hle : ∑ c ∈ Finset.range fs.gcount, ((pass5 fs v f old).gd c).nifree =
        ∑ c ∈ Finset.range fs.gcount, clear (fs.inodeBits f.statemap c) :=
      Finset.sum_congr rfl fun c hcm => by rw [hgd c (Finset.mem_range.1 hcm)]
    rw [hle]
    refine (sum_le (m := fs.e2fs_bpg.toNat) fun c => ?_).trans_lt hlt
    rw [hc.bpg]
    exact clear_le _

/-! ### The condition is needed -/

/-- A bitmap that is nowhere put is not on every device. -/
theorem puts_of (hsize : fs.bsize = 1024 ∨ fs.bsize = 2048 ∨ fs.bsize = 4096)
    {a : ℤ} {x : fs.Bits} {f : Found}
    (hx : ∀ old : Before fs, (pass5 fs v f old).disk a = x) :
    v.takes a = true ∧ ∃ c < fs.gcount, Puts fs v c a := by
  by_contra hno
  have hold : v.takes a = false ∨ ∀ c < fs.gcount, ¬Puts fs v c a := by
    by_cases ha : v.takes a = true
    · exact .inr fun c hc hp => hno ⟨ha, c, hc, hp⟩
    · exact .inl (by simpa using ha)
  have hbits := bits_lt hsize
  have hfalse := hx ⟨fun _ k => !x k, x, fun _ => ⟨0, 0, 0⟩, 0, 0⟩
  rw [pass5_disk_old hold] at hfalse
  have hbit : (!x ⟨0, by omega⟩) = x ⟨0, by omega⟩ := congrFun hfalse ⟨0, by omega⟩
  cases hk : x ⟨0, by omega⟩ <;> rw [hk] at hbit <;> exact absurd hbit (by decide)

theorem Pass5Right.repairable (h : Pass5Right fs v blockmap statemap)
    (hbpg : fs.e2fs_bpg.toNat ≠ 0)
    (hsize : fs.bsize = 1024 ∨ fs.bsize = 2048 ∨ fs.bsize = 4096) (hpos : 0 < fs.gcount) :
    Repairable fs v blockmap statemap := by
  have hc : Countable fs statemap := by
    refine @countable_of fs statemap blockmap hbpg hsize (fun around c hlt => ?_) hpos
    have old : Before fs := ⟨fun _ _ => false, fun _ => false, fun _ => ⟨0, 0, 0⟩, 0, 0⟩
    have hr := h around old
    refine ⟨old.gd c, ?_⟩
    have hg := hr.groups c hlt
    rw [(hr.written c hlt).1, (hr.written c hlt).2, pass5_gd hlt] at hg
    exact hg
  refine ⟨hc, ?_⟩
  set f : Found := ⟨blockmap, fun _ => false, statemap⟩ with hf
  have hblocks : ∀ c < fs.gcount, ∀ old : Before fs,
      (pass5 fs v f old).disk (fs.place (v.b_bitmap c)) = fs.blockBits blockmap c := fun c hlt old =>
    ((h (fun _ => false) old).written c hlt).1.trans (Countable.bbmap (f := f) hc hsize hlt)
  have hinodes : ∀ c < fs.gcount, ∀ old : Before fs,
      (pass5 fs v f old).disk (fs.place (v.i_bitmap c)) = fs.inodeBits statemap c := fun c hlt old =>
    ((h (fun _ => false) old).written c hlt).2.trans (Countable.ibmap (f := f) hc hsize hlt)
  have hputs : ∀ c a, Puts fs v c a → a < 2 ^ 31 := by
    rintro c a (⟨-, rfl⟩ | rfl)
    · exact fs.sector32_range _
    · exact fs.sector32_range _
  have hreach : ∀ c < fs.gcount, v.Reaches fs (v.b_bitmap c) ∧ v.Reaches fs (v.i_bitmap c) := by
    intro c hlt
    obtain ⟨htb, cb, -, hpb⟩ := puts_of hsize (hblocks c hlt)
    obtain ⟨hti, ci, -, hpi⟩ := puts_of hsize (hinodes c hlt)
    exact ⟨⟨hputs cb _ hpb, htb⟩, hputs ci _ hpi, hti⟩
  have old : Before fs := ⟨fun _ _ => false, fun _ => false, fun _ => ⟨0, 0, 0⟩, 0, 0⟩
  refine ⟨hreach, fun c hlt c' hlt' heq => ?_, fun c hlt c' hlt' heq => ?_, fun c hlt c' hlt' heq => ?_,
    fun hone c hlt => ?_⟩
  · rw [← hblocks c hlt old, ← hblocks c' hlt' old, heq]
  · rw [← hinodes c hlt old, ← hinodes c' hlt' old, heq]
  · rw [← hblocks c hlt old, ← hinodes c' hlt' old, heq]
  · have hs : Shared fs v := by
      unfold Shared
      rw [(SbImage.sector_place (hreach 0 hpos).1.1).2, (SbImage.sector_place (hreach 0 hpos).2.1).1, hone]
    obtain ⟨-, c', hlt', hp⟩ := puts_of hsize (hblocks c hlt)
    have hsector := hp.resolve_left fun hc => hc.1 hs
    rw [(SbImage.sector_place (hreach c' hlt').2.1).2] at hsector
    exact ⟨c', hlt', SbImage.place_inj hsector⟩

end

/-- **When `pass5` repairs a volume**: on one without groups; or the groups fill their bitmaps, have no
free inode in a last byte that is not whole, and no inode that is not there, but for reserved ones;
their blocks are words with a sign; and the bitmaps have blocks of their own. -/
theorem pass5_iff (env : Env) (sb : SbImage) (s : St) (h : setup env sb = some s) (v : GroupTable)
    (blockmap : ℕ → Bool) (statemap : ℕ → InoState) :
    Pass5Right s.sblock v blockmap statemap ↔
      s.sblock.gcount = 0 ∨ Repairable s.sblock v blockmap statemap := by
  have hbad := (setup_checks h).1
  unfold SbImage.Bad at hbad
  have hbpg : s.sblock.e2fs_bpg.toNat ≠ 0 := fun h0 =>
    hbad (.inr (.inr (.inl (BitVec.eq_of_toNat_eq h0))))
  have hsize : s.sblock.bsize = 1024 ∨ s.sblock.bsize = 2048 ∨ s.sblock.bsize = 4096 :=
    DivState.bsize_cases (by omega)
  by_cases hpos : s.sblock.gcount = 0
  · refine iff_of_true (fun around old => ?_) (.inl hpos)
    refine ⟨fun c hc => absurd hc (by omega), fun c hc => absurd hc (by omega), ?_, ?_⟩
    · rw [pass5_fbcount, loop_nbfree, hpos]
      rfl
    · rw [pass5_ficount, loop_nifree, hpos]
      rfl
  · constructor
    · exact fun hr => .inr (hr.repairable hbpg hsize (Nat.pos_of_ne_zero hpos))
    · exact fun hr => (hr.resolve_left hpos).right hsize

/-- Bitmaps in two blocks of a device that takes everything. -/
def bitmapTable : GroupTable where
  b_bitmap _ := 3
  i_bitmap _ := 4
  takes a := decide (0 ≤ a)
  front _ ha := decide_eq_false (by omega)

/-- Only the root is in use. -/
def onlyRoot (j : ℕ) : InoState := if j = ROOTINO then .dstate else .ustate

theorem oneGroup_pass5Right : Pass5Right oneGroup bitmapTable (fun _ => true) onlyRoot := by
  have hset : (setup preenOneGroup oneGroup).map St.sblock = some oneGroup := by decide +kernel
  obtain ⟨s, hs, hsb⟩ := Option.map_eq_some_iff.1 hset
  have hiff := pass5_iff preenOneGroup oneGroup s hs bitmapTable (fun _ => true) onlyRoot
  rw [hsb] at hiff
  have hg : oneGroup.gcount = 1 := by decide +kernel
  have hipg : oneGroup.e2fs_ipg.toNat = 64 := rfl
  refine hiff.2 (.inr ⟨⟨by decide +kernel, by decide +kernel, fun c hc => ?_, fun hc => ?_,
    fun c hc i hi hb => ?_, fun c hc i hi hlt => ?_, fun c hc i hi hres => ?_⟩, ⟨fun c hc => ?_,
    fun c hc c' hc' _ => ?_, fun c hc c' hc' _ => ?_, fun c hc c' hc' heq => ?_, fun heq => ?_⟩⟩)
  · obtain rfl : c = 0 := by omega
    decide +kernel
  · exact absurd hc (by decide +kernel)
  · rw [hipg] at hi hb
    unfold NBBY at hb
    omega
  · obtain rfl : c = 0 := by omega
    have hcount : oneGroup.e2fs_icount.toNat = 64 := rfl
    unfold SbImage.inodeOf at hlt
    omega
  · unfold onlyRoot
    rw [if_neg hres.2]
    rfl
  · obtain rfl : c = 0 := by omega
    exact ⟨⟨by decide +kernel, by decide +kernel⟩, by decide +kernel, by decide +kernel⟩
  · obtain rfl : c = 0 := by omega
    obtain rfl : c' = 0 := by omega
    rfl
  · obtain rfl : c = 0 := by omega
    obtain rfl : c' = 0 := by omega
    rfl
  · have hne : (4 : ℕ) = 3 := heq
    omega
  · exact absurd heq (by decide)

/-- A volume of one group with twelve inodes of 256 bytes. -/
def twelveInodes : SbImage :=
  { oneGroup with
    e2fs_icount := 12
    e2fs_ipg := 12
    e2fs_inode_size := 256 }

/-- `fsck -p` of it. -/
def preenTwelve : Env := { preenOneGroup with disk := fun n => if n = 2 then some twelveInodes else none }

/-- **Inode 12 is free, and its bit is set.** -/
theorem twelveInodes_wrong :
    (setup preenTwelve twelveInodes).map St.sblock = some twelveInodes ∧
      onlyRoot 12 = .ustate ∧
      (∀ h : 11 < NBBY * twelveInodes.bsize, twelveInodes.ibmap onlyRoot 0 ⟨11, h⟩ = true) ∧
      ¬Pass5Right twelveInodes bitmapTable (fun _ => true) onlyRoot := by
  refine ⟨by decide +kernel, rfl, fun h => ?_, fun hr => ?_⟩
  · rw [SbImage.ibmap_eq]
    have hdiv : twelveInodes.e2fs_ipg.toNat / NBBY ≤ 11 / NBBY := by decide +kernel
    exact decide_eq_true (.inl hdiv)
  · have hc := (hr.repairable (by decide +kernel) (.inl (by decide +kernel))
      (by decide +kernel)).countable
    have htaken := hc.lastByte 0 (by decide +kernel) 11 (by decide +kernel) (by decide +kernel)
    revert htaken
    decide +kernel

end Ext2fs.Fsck
