import Ext2fs.BallocSpec
import Ext2fs.IndirtruncSpec

/-!
# What `ext2_truncate` does to the inode

The loops of `ext2_truncate` work through the slots of the inode from the last one down, and leave
when they reach one that is kept.  `TruncInv` is their invariant: it says what has become of the
slots from some slot on, and the lower ones are as they were.  `TruncInv.step` passes one slot,
`TruncInv.skip` one that needs no work.

* `truncLevels_spec`, `truncDirect_spec` — the loops keep the invariant;
* `truncRelease_spec` — the pointers, the blocks freed and the order of the writes after the partial
  block has been fetched;
* `truncPartial_spec` — the partial block itself.
-/

namespace Ext2fs

open PtrTree

/-! ### The arithmetic of the cut -/

/-- How many of the blocks below a slot a file of `K` blocks keeps. -/
def keptOf (N K s : ℕ) : ℕ := K - base N s

section

variable {fs : MExt2fs} {K : ℕ}

theorem base_nslots_lt (fs : MExt2fs) : base fs.nindir NSLOTS < 2 ^ 31 := by
  rw [base_nslots]
  rcases fs.nindir_cases with h | h | h <;> rw [h] <;> norm_num

/-- A file of an accepted size has no block behind the pointer tree. -/
theorem coveredBlocks_le {length : ℕ} (h : length ≤ fs.maxfilesize) :
    fs.coveredBlocks length ≤ base fs.nindir NSLOTS := by
  rw [base_nslots]
  unfold MExt2fs.coveredBlocks MExt2fs.lblkno
  rw [Nat.div_le_iff_le_mul_add_pred fs.bsize_pos, mul_comm fs.bsize]
  have := fs.maxfilesize_le
  have := fs.bsize_pos
  omega

theorem lastblock_eq {length : ℕ} (h : fs.coveredBlocks length ≤ base fs.nindir NSLOTS) :
    lastblock fs length = (fs.coveredBlocks length : ℤ) - 1 := by
  have := base_nslots_lt fs
  unfold lastblock
  exact i32_of_lt (by omega) (by omega)

theorem rawLastiblock_eq (hK : K ≤ base fs.nindir NSLOTS) {level : ℕ} (hl : level < NIADDR) :
    rawLastiblock fs ((K : ℤ) - 1) level = (K : ℤ) - 1 - base fs.nindir (12 + level) := by
  have hlt := base_nslots_lt fs
  induction level with
  | zero =>
    simp only [rawLastiblock, NDADDR, add_zero, base_single]
    exact i32_of_lt (by norm_num; omega) (by push_cast; omega)
  | succ level ih =>
    have hle : base fs.nindir (12 + level + 1) ≤ base fs.nindir NSLOTS := by
      refine (Nat.le_add_right _ _).trans (base_add_le ?_)
      unfold NIADDR at hl
      unfold NSLOTS NDADDR NIADDR
      omega
    have hsucc := base_succ fs.nindir (12 + level)
    have hh : height (12 + level) = level + 1 := by unfold height NDADDR; omega
    rw [rawLastiblock, ih (by omega), ← Nat.add_assoc, hsucc, hh]
    rw [hsucc, hh] at hle
    push_cast
    rw [i32_of_lt]
    · ring
    · have : ((fs.nindir ^ (level + 1) : ℕ) : ℤ) = (fs.nindir : ℤ) ^ (level + 1) := by push_cast; ring
      omega
    · have : ((fs.nindir ^ (level + 1) : ℕ) : ℤ) = (fs.nindir : ℤ) ^ (level + 1) := by push_cast; ring
      omega

/-- `lastiblock` is one less than the number of blocks that are kept. -/
theorem lastiblock_eq (hK : K ≤ base fs.nindir NSLOTS) {level : ℕ} (hl : level < NIADDR) :
    lastiblock fs ((K : ℤ) - 1) level = (keptOf fs.nindir K (12 + level) : ℤ) - 1 := by
  unfold lastiblock keptOf
  rw [rawLastiblock_eq hK hl]
  split <;> omega

end

/-! ### One slot -/

/-- The numbers `ext2_blkfree` is called with for a slot: the blocks the tree loses below its root,
and the root itself as an `int32_t` when the slot goes. -/
def SlotCut (fs : MExt2fs) (st : Store) (ip : Inode) (K s : ℕ) (n : ℤ) : Prop :=
  nums (fun b => b ≠ ip.slot s ∧
    Cut fs.nindir st (height s) (ip.slot s) (keptOf fs.nindir K s) b) n ∨
  (ip.slot s ≠ 0 ∧ keptOf fs.nindir K s = 0 ∧ n = i32 (ip.slot s))

/-- An indirect slot that the loops work on can be reached, and so can the indirect blocks that are
kept in part. -/
def SlotIo (fs : MExt2fs) (env : TruncEnv) (st : Store) (ip : Inode) (K s : ℕ) : Prop :=
  12 ≤ s → keptOf fs.nindir K s ≤ fs.nindir ^ height s → ip.slot s < 2 ^ 31 ∧
    (0 < keptOf fs.nindir K s →
      PathIo fs env st (height s) (ip.slot s) (keptOf fs.nindir K s))

/-- The slots from `s` on have been worked through, from `w` to `u`; `ip` and `st` are the pointers
before. -/
structure TruncInv (fs : MExt2fs) (env : TruncEnv) (st : Store) (ip : Inode) (K : ℕ) (w : World)
    (s : ℕ) (u : Freeing) : Prop where
  slots : ∀ s' < NSLOTS, u.world.ip.slot s'
    = if s ≤ s' ∧ keptOf fs.nindir K s' = 0 then 0 else ip.slot s'
  releases : Releases fs w u.world
    (fun b => ∃ s', s ≤ s' ∧ s' < NSLOTS ∧ Mem fs.nindir st (height s') (ip.slot s') b)
    (fun n => ∃ s', s ≤ s' ∧ s' < NSLOTS ∧ SlotCut fs st ip K s' n) (u.allerror = none)
    (fun e => e.image = w.image ∧ (env.WritesOk → ∀ b : ℕ, e.bno = b → ∀ s' < NSLOTS,
      0 < keptOf fs.nindir K s' → ¬ Mem fs.nindir (e.store fs) (height s') (ip.slot s') b))
  path : u.allerror = none → ∀ s' < NSLOTS, s ≤ s' → SlotIo fs env st ip K s'
  trims : ∀ s' < NSLOTS, s ≤ s' → 0 < keptOf fs.nindir K s' → SlotIo fs env st ip K s' →
    Trims fs.nindir st (u.world.store fs) (height s') (ip.slot s') (keptOf fs.nindir K s')

/-- The pointers before: a consistent inode whose slots are 32 bits wide. -/
structure TruncStart (fs : MExt2fs) (st : Store) (ip : Inode) (w : World) : Prop where
  shaped : TreeShaped fs.nindir st ip
  range : ∀ s < NSLOTS, ip.slot s < 2 ^ 32
  slots : ∀ s < NSLOTS, w.ip.slot s = ip.slot s
  intact : ∀ s < NSLOTS, Intact fs st (height s) (ip.slot s) w

section

variable {fs : MExt2fs} {env : TruncEnv} {st : Store} {ip : Inode} {K s : ℕ} {w : World}
variable {u u' : Freeing}

/-- A number freed for a slot is a block of its tree, or the root made negative. -/
theorem SlotCut.decode {n : ℤ} (h : SlotCut fs st ip K s n) (hr : ip.slot s < 2 ^ 32) :
    (∃ b : ℕ, n = b ∧ Mem fs.nindir st (height s) (ip.slot s) b) ∨
      (n < 0 ∧ n + 2 ^ 32 = ip.slot s ∧ ip.slot s ≠ 0) := by
  rcases h with ⟨b, rfl, _, hb⟩ | ⟨hne, _, hn⟩
  · exact .inl ⟨b, rfl, hb.mem⟩
  · by_cases hlt : ip.slot s < 2 ^ 31
    · have hsame : i32 (ip.slot s) = ip.slot s := i32_of_lt (by omega) (by omega)
      exact .inl ⟨ip.slot s, hn.trans hsame, mem_root hne⟩
    · have hneg : i32 (ip.slot s) = (ip.slot s : ℤ) - 2 ^ 32 := i32_neg (by omega) hr
      exact .inr ⟨by omega, by omega, hne⟩

theorem SlotCut.disjoint {s' : ℕ} {n : ℤ} (hst : TruncStart fs st ip w) (hs : s < NSLOTS)
    (hs' : s' < NSLOTS) (hne : s ≠ s') (h : SlotCut fs st ip K s n) :
    ¬ SlotCut fs st ip K s' n := by
  intro h'
  rcases h.decode (hst.range s hs) with ⟨b, rfl, hb⟩ | ⟨hn, heq, hnz⟩
  · rcases h'.decode (hst.range s' hs') with ⟨b', hb', hm⟩ | ⟨hn, _⟩
    · rw [Int.natCast_inj] at hb'
      exact hst.shaped.disjoint s hs s' hs' hne b hb (hb' ▸ hm)
    · omega
  · rcases h'.decode (hst.range s' hs') with ⟨b', rfl, _⟩ | ⟨_, heq', _⟩
    · omega
    · have hroots : ip.slot s = ip.slot s' := by omega
      refine hst.shaped.disjoint s hs s' hs' hne _ (mem_root hnz) ?_
      rw [hroots]
      exact mem_root (hroots ▸ hnz)

/-- A slot that has not been worked on is intact. -/
theorem TruncInv.intact (hst : TruncStart fs st ip w) (h : TruncInv fs env st ip K w (s + 1) u)
    (hs : s < NSLOTS) : Intact fs st (height s) (ip.slot s) u.world := by
  refine (hst.intact s hs).of_releases h.releases ?_ ?_
  · rintro b hb ⟨s', hlt, hs', hb'⟩
    exact hst.shaped.disjoint s hs s' hs' (by omega) b hb hb'
  · rintro b hb ⟨s', hlt, hs', hcut⟩
    rcases hcut.decode (hst.range s' hs') with ⟨b', hbb, hm⟩ | ⟨hn, _⟩
    · rw [Int.natCast_inj] at hbb
      exact hst.shaped.disjoint s hs s' hs' (by omega) b hb (hbb ▸ hm)
    · omega

theorem TruncInv.start (hst : TruncStart fs st ip w) (e : Option Errno) :
    TruncInv fs env st ip K w NSLOTS ⟨e, 0, w⟩ := by
  refine ⟨fun s' hs' => ?_, .refl w ?_, fun _ s' h h' => ?_, fun s' h h' => ?_⟩
  · rw [if_neg (by omega)]
    exact hst.slots s' hs'
  · rintro _ n ⟨s', h, h', _⟩
    omega
  · omega
  · omega

/-- What the work on one slot does. -/
structure SlotStep (fs : MExt2fs) (env : TruncEnv) (st : Store) (ip : Inode) (K s : ℕ)
    (u u' : Freeing) : Prop where
  slots : ∀ s' < NSLOTS, u'.world.ip.slot s'
    = if s' = s ∧ keptOf fs.nindir K s = 0 then 0 else u.world.ip.slot s'
  releases : Releases fs u.world u'.world (Mem fs.nindir st (height s) (ip.slot s))
    (SlotCut fs st ip K s) (u'.allerror = none)
    (CutEvent fs env st (height s) (ip.slot s) (keptOf fs.nindir K s) u.world)
  error : u'.allerror = none → u.allerror = none
  path : u'.allerror = none → SlotIo fs env st ip K s
  trims : 0 < keptOf fs.nindir K s → SlotIo fs env st ip K s →
    Trims fs.nindir st (u'.world.store fs) (height s) (ip.slot s) (keptOf fs.nindir K s)

/-- The kept trees other than the one worked on do not hold a block that is freed. -/
theorem CutEvent.not_kept {e : FreeEvent} (hst : TruncStart fs st ip w)
    (h : TruncInv fs env st ip K w (s + 1) u) (hs : s < NSLOTS)
    (hkept : ∀ s' < NSLOTS, s < s' → keptOf fs.nindir K s' = 0)
    (hcut : SlotCut fs st ip K s e.bno)
    (hev : CutEvent fs env st (height s) (ip.slot s) (keptOf fs.nindir K s) u.world e)
    (hwr : env.WritesOk) {b s' : ℕ} (hb : e.bno = b) (hs' : s' < NSLOTS)
    (hpos : 0 < keptOf fs.nindir K s') :
    ¬ Mem fs.nindir (e.store fs) (height s') (ip.slot s') b := by
  rcases lt_trichotomy s' s with hlt | rfl | hlt
  · have hin : Mem fs.nindir st (height s) (ip.slot s) b := by
      rcases hcut.decode (hst.range s hs) with ⟨b', hb', hm⟩ | ⟨hn, _⟩
      · rw [hb, Int.natCast_inj] at hb'
        exact hb' ▸ hm
      · omega
    have hsame : ∀ x, Mem fs.nindir st (height s') (ip.slot s') x → e.store fs x = st x := by
      intro x hx
      rw [hev.1.2 x (hst.shaped.disjoint s' hs' s hs (by omega) x hx), h.releases.frame x]
      · exact (hst.intact s' hs').store x hx
      · rintro ⟨t, hlo, ht, hxt⟩
        exact hst.shaped.disjoint s' hs' t ht (by omega) x hx hxt
    rw [mem_congr hsame]
    exact hst.shaped.disjoint s hs s' hs' (by omega) b hin
  · exact hev.2 hpos hwr b hb
  · rw [hkept s' hs' hlt] at hpos
    exact absurd hpos (lt_irrefl 0)

theorem TruncInv.step (hst : TruncStart fs st ip w) (h : TruncInv fs env st ip K w (s + 1) u)
    (hs : s < NSLOTS) (hkept : ∀ s' < NSLOTS, s < s' → keptOf fs.nindir K s' = 0)
    (c : SlotStep fs env st ip K s u u') : TruncInv fs env st ip K w s u' := by
  have h1 : Releases fs w u.world
      (fun b => ∃ s', s ≤ s' ∧ s' < NSLOTS ∧ Mem fs.nindir st (height s') (ip.slot s') b)
      (fun n => ∃ s', s + 1 ≤ s' ∧ s' < NSLOTS ∧ SlotCut fs st ip K s' n) (u'.allerror = none)
      (fun e => e.image = w.image ∧ (env.WritesOk → ∀ b : ℕ, e.bno = b → ∀ s' < NSLOTS,
        0 < keptOf fs.nindir K s' → ¬ Mem fs.nindir (e.store fs) (height s') (ip.slot s') b)) := by
    refine h.releases.mono ?_ (fun _ => Iff.rfl) c.error fun _ _ he => he
    rintro x ⟨s', hle, hs', hx⟩
    exact ⟨s', by omega, hs', hx⟩
  have h2 : Releases fs u.world u'.world
      (fun b => ∃ s', s ≤ s' ∧ s' < NSLOTS ∧ Mem fs.nindir st (height s') (ip.slot s') b)
      (SlotCut fs st ip K s) (u'.allerror = none)
      (fun e => e.image = w.image ∧ (env.WritesOk → ∀ b : ℕ, e.bno = b → ∀ s' < NSLOTS,
        0 < keptOf fs.nindir K s' → ¬ Mem fs.nindir (e.store fs) (height s') (ip.slot s') b)) := by
    refine c.releases.mono (fun x hx => ⟨s, le_rfl, hs, hx⟩) (fun _ => Iff.rfl) id
      fun e he hev => ⟨hev.1.1.trans h.releases.image, fun hwr b hb s' hs' hpos => ?_⟩
    exact hev.not_kept hst h hs hkept he hwr hb hs' hpos
  refine ⟨fun s' hs' => ?_, (h1.trans h2 ?_).mono (fun _ h => h) (fun n => ?_) id fun _ _ h => h,
    fun hok s' hs' hle => ?_, fun s' hs' hle hpos hio => ?_⟩
  · rw [c.slots s' hs', h.slots s' hs']
    by_cases heq : s' = s
    · subst heq
      simp
    · have hiff : (s ≤ s' ∧ keptOf fs.nindir K s' = 0) ↔
          (s + 1 ≤ s' ∧ keptOf fs.nindir K s' = 0) := and_congr_left fun _ => by omega
      rw [if_neg fun hc => heq hc.1]
      simp only [hiff]
  · rintro n ⟨s', hlt, hs', hcut⟩ hcut'
    exact hcut.disjoint hst hs' hs (by omega) hcut'
  · constructor
    · rintro (⟨s', hlt, hs', hcut⟩ | hcut)
      · exact ⟨s', by omega, hs', hcut⟩
      · exact ⟨s, le_rfl, hs, hcut⟩
    · rintro ⟨s', hle, hs', hcut⟩
      by_cases heq : s' = s
      · exact .inr (heq ▸ hcut)
      · exact .inl ⟨s', by omega, hs', hcut⟩
  · by_cases heq : s' = s
    · exact heq ▸ c.path hok
    · exact h.path (c.error hok) s' hs' (by omega)
  · by_cases heq : s' = s
    · subst heq
      exact c.trims hpos hio
    · refine (h.trims s' hs' (by omega) hpos hio).of_congr fs.nindir_pos fun x hx => ?_
      exact c.releases.frame x (hst.shaped.disjoint s' hs' s hs heq x hx)

/-- A slot whose tree is kept whole needs no work. -/
theorem TruncInv.skip (hst : TruncStart fs st ip w) (h : TruncInv fs env st ip K w (s + 1) u)
    (hs : s < NSLOTS) (hfull : fs.nindir ^ height s ≤ keptOf fs.nindir K s)
    (hlt : 12 ≤ s → fs.nindir ^ height s < keptOf fs.nindir K s) :
    TruncInv fs env st ip K w s u := by
  have hpos : 0 < keptOf fs.nindir K s := lt_of_lt_of_le (pow_pos fs.nindir_pos _) hfull
  refine ⟨fun s' hs' => ?_, h.releases.mono ?_ (fun n => ?_) id fun _ _ h => h,
    fun hok s' hs' hle => ?_, fun s' hs' hle hpos' hio => ?_⟩
  · rw [h.slots s' hs']
    refine if_congr (and_congr_left fun hzero => ?_) rfl rfl
    constructor
    · omega
    · intro hle
      by_contra hc
      obtain rfl : s' = s := by omega
      omega
  · rintro x ⟨s', hle, hs', hx⟩
    exact ⟨s', by omega, hs', hx⟩
  · constructor
    · rintro ⟨s', hle, hs', hx⟩
      exact ⟨s', by omega, hs', hx⟩
    · rintro ⟨s', hle, hs', hcut⟩
      refine ⟨s', ?_, hs', hcut⟩
      by_contra hc
      obtain rfl : s' = s := by omega
      rcases hcut with ⟨b, _, _, hb⟩ | ⟨_, hzero, _⟩
      · exact not_cut_of_le hfull fs.nindir_pos hb
      · omega
  · by_cases heq : s' = s
    · subst heq
      intro h12 hle'
      have := hlt h12
      omega
    · exact h.path hok s' hs' (by omega)
  · by_cases heq : s' = s
    · subst heq
      exact .full fs.nindir_pos hfull (hst.shaped.sep s' hs) (h.intact hst hs).store
    · exact h.trims s' hs' (by omega) hpos' hio

/-- The slots below one that is kept need no work. -/
theorem TruncInv.skipAll (hst : TruncStart fs st ip w) {t : ℕ} (ht : t < NSLOTS)
    (hpos : 0 < keptOf fs.nindir K t) :
    ∀ s ≤ t, TruncInv fs env st ip K w s u → TruncInv fs env st ip K w 0 u := by
  intro s
  induction s with
  | zero => exact fun _ h => h
  | succ s ih =>
    intro hle h
    have hbase := base_add_le (N := fs.nindir) hle
    unfold keptOf at hpos
    have hlt : fs.nindir ^ height s < keptOf fs.nindir K s := by
      unfold keptOf
      omega
    exact ih (by omega) (h.skip hst (by omega) hlt.le fun _ => hlt)

/-! ### The work on one slot -/

theorem i32_eq_zero {b : ℕ} (h : b < 2 ^ 32) : i32 b = 0 ↔ b = 0 := by
  by_cases hlt : b < 2 ^ 31
  · have hsame : i32 (b : ℤ) = b := i32_of_lt (by omega) (by omega)
    omega
  · have hneg : i32 (b : ℤ) = (b : ℤ) - 2 ^ 32 := i32_neg (by omega) h
    omega

/-- The root of a tree that goes, after the blocks below it. -/
theorem SlotStep.of_root {r : Freeing} {w₂ : World} (hne : ip.slot s ≠ 0)
    (hr : ip.slot s < 2 ^ 32) (hzero : keptOf fs.nindir K s = 0)
    (hi : Intact fs st (height s) (ip.slot s) u.world)
    (hrel : Releases fs u.world r.world (Mem fs.nindir st (height s) (ip.slot s))
      (nums fun b => b ≠ ip.slot s ∧ Cut fs.nindir st (height s) (ip.slot s) 0 b)
      (r.allerror = none) (CutEvent fs env st (height s) (ip.slot s) 0 u.world))
    (herr : r.allerror = none → u.allerror = none ∧ (12 ≤ s → ip.slot s < 2 ^ 31))
    (hw₂ : ∃ ip₂, w₂ = { r.world with ip := ip₂ })
    (hslots : ∀ s' < NSLOTS, w₂.ip.slot s' = if s' = s then 0 else u.world.ip.slot s') :
    SlotStep fs env st ip K s u (r.freeSlot fs env w₂ (i32 (ip.slot s))) := by
  obtain ⟨ip₂, rfl⟩ := hw₂
  have hused : 0 ≤ i32 (ip.slot s) → r.world.avail (i32 (ip.slot s)).toNat = false := by
    intro hpos
    have hlt : ip.slot s < 2 ^ 31 := by
      by_contra hc
      have hneg : i32 (ip.slot s) = (ip.slot s : ℤ) - 2 ^ 32 := i32_neg (by omega) hr
      omega
    have hsame : i32 (ip.slot s) = ip.slot s := i32_of_lt (by omega) (by omega)
    rw [hsame, Int.toNat_natCast, hrel.avail_eq, hi.used _ (mem_root hne)]
    rw [nums_cast]
    exact fun h => h.1 rfl
  have hfree : Releases fs { r.world with ip := ip₂ }
      (r.freeSlot fs env { r.world with ip := ip₂ } (i32 (ip.slot s))).world
      (Mem fs.nindir st (height s) (ip.slot s)) (fun n => n = i32 (ip.slot s))
      (r.allerror = none) (CutEvent fs env st (height s) (ip.slot s) 0 u.world) :=
    .free hused ⟨⟨hrel.image, fun x hx => hrel.frame x hx⟩, fun h => absurd h (lt_irrefl 0)⟩
  have hfree' : Releases fs r.world
      (r.freeSlot fs env { r.world with ip := ip₂ } (i32 (ip.slot s))).world
      (Mem fs.nindir st (height s) (ip.slot s)) (fun n => n = i32 (ip.slot s))
      (r.allerror = none) (CutEvent fs env st (height s) (ip.slot s) 0 u.world) :=
    ⟨hfree.image, hfree.panicked, hfree.frame, hfree.freed⟩
  refine ⟨fun s' hs' => ?_, (hrel.trans hfree' ?_).mono (fun _ h => h) (fun n => ?_) id ?_,
    fun h => (herr h).1, fun h h12 _ => ⟨(herr h).2 h12, fun hpos => ?_⟩, fun hpos => ?_⟩
  · rw [hzero]
    simp only [and_true]
    rw [← hslots s' hs']
    exact congrArg (fun i : Inode => i.slot s') World.blkfree_ip
  · rintro _ ⟨b, rfl, hb, _⟩ heq
    by_cases hlt : ip.slot s < 2 ^ 31
    · have hsame : i32 (ip.slot s) = ip.slot s := i32_of_lt (by omega) (by omega)
      omega
    · have hneg : i32 (ip.slot s) = (ip.slot s : ℤ) - 2 ^ 32 := i32_neg (by omega) hr
      omega
  · unfold SlotCut
    rw [hzero]
    exact or_congr_right ⟨fun h => ⟨hne, rfl, h⟩, fun h => h.2.2⟩
  · rw [hzero]
    exact fun _ _ h => h
  · omega
  · omega

/-- A slot without a tree. -/
theorem SlotStep.of_null (hne : ip.slot s = 0) (hu : u.world.ip.slot s = 0) :
    SlotStep fs env st ip K s u u := by
  refine ⟨fun s' _ => ?_, .refl _ ?_, id, fun _ _ _ => ?_, fun _ _ => ?_⟩
  · split
    · next h => rw [h.1, hu]
    · rfl
  · rintro _ n (⟨b, _, _, hb⟩ | ⟨h, _⟩)
    · rw [hne] at hb
      exact not_cut_null hb
    · exact h hne
  · rw [hne]
    refine ⟨by norm_num, fun _ => ?_⟩
    cases height s with
    | zero => trivial
    | succ k => exact fun h => absurd rfl h
  · rw [hne]
    exact .null

theorem truncBlock_step {i : ℕ} (h12 : i < 12) (hst : TruncStart fs st ip w)
    (h : TruncInv fs env st ip K w (i + 1) u) (hzero : keptOf fs.nindir K i = 0) :
    SlotStep fs env st ip K i u (truncBlock fs env i u) := by
  have hs : i < NSLOTS := by unfold NSLOTS NDADDR NIADDR; omega
  have hslot : u.world.ip.slot i = ip.slot i := by
    rw [h.slots i hs, if_neg (by omega)]
  have hdb : u.world.ip.db i = ip.slot i := by rw [← hslot, Inode.slot_direct h12]
  have hr := hst.range i hs
  simp only [truncBlock, hdb, i32_eq_zero hr]
  split
  · next hne => exact .of_null hne (hslot.trans hne)
  · next hne =>
    refine .of_root hne hr hzero (h.intact hst hs) (.refl _ ?_) (fun h => ⟨h, by omega⟩)
      ⟨_, rfl⟩ fun s' _ => World.setDb_slot _ h12
    rintro _ n ⟨b, _, hne, hb⟩
    rw [height_direct h12] at hb
    exact hne hb.2.2

/-- A root from `2 ^ 31` on, which is negative as an `int32_t`, cannot be read. -/
def TruncEnv.BadRootsUnread (fs : MExt2fs) (env : TruncEnv) (ip : Inode) : Prop :=
  ∀ s < NSLOTS, 2 ^ 31 ≤ ip.slot s → env.read (fs.fsbtodb (i32 (ip.slot s))) = false

theorem ext2Indirtrunc_unread {level : ℕ} {dbn lastbn : ℤ} (h : env.read dbn = false) :
    ext2Indirtrunc fs env level dbn lastbn w = ⟨some .eio, 0, w⟩ := by
  cases level <;> simp [ext2Indirtrunc, indirtruncBody, h]

/-- What the call of `ext2_indirtrunc` for a slot does. -/
theorem indirtruncCall_spec {level : ℕ} (hneg : env.BadRootsUnread fs ip) (hst : TruncStart fs st ip w)
    (hs : 12 + level < NSLOTS) (hne : ip.slot (12 + level) ≠ 0)
    (hi : Intact fs st (level + 1) (ip.slot (12 + level)) u.world) {c : ℕ}
    (hc : c ≤ fs.nindir ^ (level + 1)) {r : Freeing}
    (hr : r = u.call (ext2Indirtrunc fs env level
      (fs.fsbtodb (i32 (ip.slot (12 + level)))) ((c : ℤ) - 1))) :
    Releases fs u.world r.world (Mem fs.nindir st (level + 1) (ip.slot (12 + level)))
      (nums fun b => b ≠ ip.slot (12 + level) ∧
        Cut fs.nindir st (level + 1) (ip.slot (12 + level)) c b) (r.allerror = none)
      (CutEvent fs env st (level + 1) (ip.slot (12 + level)) c u.world) ∧
    r.world.ip = u.world.ip ∧
    (r.allerror = none → u.allerror = none ∧ ip.slot (12 + level) < 2 ^ 31 ∧
      (0 < c → PathIo fs env st (level + 1) (ip.slot (12 + level)) c)) ∧
    (0 < c → ip.slot (12 + level) < 2 ^ 31 →
      PathIo fs env st (level + 1) (ip.slot (12 + level)) c →
      Trims fs.nindir st (r.world.store fs) (level + 1) (ip.slot (12 + level)) c) := by
  subst hr
  have hh : height (12 + level) = level + 1 := by unfold height NDADDR; omega
  have hsep := hst.shaped.sep (12 + level) hs
  have hrange := hst.range (12 + level) hs
  have hneg := hneg (12 + level) hs
  generalize ip.slot (12 + level) = p at *
  rw [hh] at hsep
  by_cases hlt : p < 2 ^ 31
  · have hsame : i32 (p : ℤ) = p := i32_of_lt (by omega) (by omega)
    rw [hsame]
    have ht := (ext2Indirtrunc_spec fs env level).2 st p c u.world hne hc hsep hi
    refine ⟨ht.releases.mono (fun _ h => h) (fun _ => Iff.rfl) (fun h => (laterError_eq_none.1 h).2)
      fun _ _ h => h, ht.ip, fun h => ⟨(laterError_eq_none.1 h).1, hlt, fun hpos => ?_⟩,
      fun hpos _ => ht.trims hpos⟩
    exact ht.path hpos (laterError_eq_none.1 h).2
  · have hi32 : i32 (p : ℤ) = (p : ℤ) - 2 ^ 32 := i32_neg (by omega) hrange
    have hread : env.read (fs.fsbtodb (i32 p)) = false := hneg (by omega)
    have hcall : u.call (ext2Indirtrunc fs env level (fs.fsbtodb (i32 p)) ((c : ℤ) - 1))
        = ⟨some .eio, u.blocksreleased, u.world⟩ := by
      simp [Freeing.call, ext2Indirtrunc_unread hread, laterError]
    rw [hcall]
    refine ⟨.refl _ fun h => ?_, rfl, fun h => ?_, fun _ h => absurd h hlt⟩
    · simp at h
    · simp at h

theorem truncLevel_step {level : ℕ} (hneg : env.BadRootsUnread fs ip) (hst : TruncStart fs st ip w)
    (hl : level < NIADDR) (hK : K ≤ base fs.nindir (12 + level + 1))
    (h : TruncInv fs env st ip K w (12 + level + 1) u) :
    SlotStep fs env st ip K (12 + level) u (truncLevel fs env ((K : ℤ) - 1) level u) := by
  have hs : 12 + level < NSLOTS := by unfold NSLOTS NDADDR; omega
  have hh : height (12 + level) = level + 1 := by unfold height NDADDR; omega
  have hK' : K ≤ base fs.nindir NSLOTS := by
    refine hK.trans ?_
    rcases Nat.lt_or_ge (12 + level + 1) NSLOTS with hlt | hge
    · exact (Nat.le_add_right _ _).trans (base_add_le hlt)
    · rw [show 12 + level + 1 = NSLOTS by unfold NSLOTS NDADDR at *; omega]
  have hslot : u.world.ip.slot (12 + level) = ip.slot (12 + level) := by
    rw [h.slots _ hs, if_neg (by omega)]
  have hib : u.world.ip.ib level = ip.slot (12 + level) := by
    rw [← hslot, Inode.slot_indirect (by omega), Nat.add_sub_cancel_left]
  have hr := hst.range (12 + level) hs
  have hc : keptOf fs.nindir K (12 + level) ≤ fs.nindir ^ (level + 1) := by
    rw [base_succ, hh] at hK
    unfold keptOf
    omega
  have hi := h.intact hst hs
  simp only [truncLevel, hib, i32_eq_zero hr, lastiblock_eq hK' hl]
  split
  · next hne => exact .of_null hne (hslot.trans hne)
  · next hne =>
    rw [hh] at hi
    generalize hcall : u.call (ext2Indirtrunc fs env level
      (fs.fsbtodb (i32 (ip.slot (12 + level)))) ((keptOf fs.nindir K (12 + level) : ℤ) - 1)) = r
    obtain ⟨hrel, hip, herr, htrims⟩ := indirtruncCall_spec hneg hst hs hne hi hc hcall.symm
    rw [← hh] at hrel herr htrims hi
    split
    · next hzero =>
      have hzero' : keptOf fs.nindir K (12 + level) = 0 := by omega
      rw [hzero'] at hrel
      refine .of_root hne hr hzero' hi hrel (fun h => ⟨(herr h).1, fun _ => (herr h).2.1⟩)
        ⟨_, rfl⟩ fun s' _ => ?_
      rw [World.setIb_slot, hip, Nat.add_comm level]
    · next hpos =>
      refine ⟨fun s' _ => ?_, hrel.mono (fun _ h => h) (fun n => ?_) id fun _ _ h => h,
        fun h => (herr h).1, fun h _ _ => (herr h).2, fun hpos hio => ?_⟩
      · rw [hip, if_neg]
        omega
      · unfold SlotCut
        constructor
        · exact .inl
        · rintro (h | ⟨_, hzero, _⟩)
          · exact h
          · omega
      · obtain ⟨hlt, hpath⟩ := hio (by omega) (hh ▸ hc)
        exact htrims hpos hlt (hpath hpos)

/-! ### The loops -/

theorem keptOf_eq_zero {N s' : ℕ} (h : keptOf N K s = 0) (hle : s ≤ s') : keptOf N K s' = 0 := by
  rcases Nat.eq_or_lt_of_le hle with rfl | hlt
  · exact h
  · have := base_add_le (N := N) hlt
    unfold keptOf at h ⊢
    omega

/-- The loop over the levels ends with all slots done, or with the indirect ones. -/
theorem truncLevels_spec (hneg : env.BadRootsUnread fs ip) (hst : TruncStart fs st ip w) :
    ∀ (level : ℕ) (u : Freeing), level ≤ NIADDR → K ≤ base fs.nindir (12 + level) →
      TruncInv fs env st ip K w (12 + level) u →
      ((truncLevels fs env ((K : ℤ) - 1) level u).1 = true ∧
        TruncInv fs env st ip K w 0 (truncLevels fs env ((K : ℤ) - 1) level u).2) ∨
      ((truncLevels fs env ((K : ℤ) - 1) level u).1 = false ∧ K ≤ base fs.nindir 12 ∧
        TruncInv fs env st ip K w 12 (truncLevels fs env ((K : ℤ) - 1) level u).2) := by
  intro level
  induction level with
  | zero => exact fun u _ hK h => .inr ⟨rfl, hK, h⟩
  | succ level ih =>
    intro u hl hK h
    have hs : 12 + level < NSLOTS := by unfold NSLOTS NDADDR; omega
    have hK' : K ≤ base fs.nindir NSLOTS := by
      rcases Nat.lt_or_ge (12 + (level + 1)) NSLOTS with hlt | hge
      · exact hK.trans ((Nat.le_add_right _ _).trans (base_add_le hlt))
      · rwa [show 12 + (level + 1) = NSLOTS by unfold NSLOTS NDADDR at *; omega] at hK
    have hkept : ∀ s' < NSLOTS, 12 + level < s' → keptOf fs.nindir K s' = 0 := by
      intro s' _ hlt
      refine keptOf_eq_zero (s := 12 + (level + 1)) ?_ (by omega)
      unfold keptOf
      omega
    have hstep := h.step hst hs hkept (truncLevel_step hneg hst (by omega) hK h)
    rw [truncLevels, lastiblock_eq hK' (by omega)]
    by_cases hpos : 0 ≤ (keptOf fs.nindir K (12 + level) : ℤ) - 1
    · rw [if_pos hpos]
      have hdone := TruncInv.skipAll hst hs (by omega) (12 + level) le_rfl hstep
      generalize truncLevel fs env ((K : ℤ) - 1) level u = u' at hdone ⊢
      exact .inl ⟨rfl, hdone⟩
    · rw [if_neg hpos]
      refine ih _ (by omega) ?_ hstep
      unfold keptOf at hpos
      omega

/-- The loop over the direct blocks ends with all slots done. -/
theorem truncDirect_spec (hst : TruncStart fs st ip w) : ∀ (i : ℕ) (u : Freeing), i ≤ 12 →
    K ≤ i → TruncInv fs env st ip K w i u →
    TruncInv fs env st ip K w 0 (truncDirect fs env ((K : ℤ) - 1) i u) := by
  intro i
  induction i with
  | zero => exact fun u _ _ h => h
  | succ i ih =>
    intro u hle hK h
    have h12 : i < 12 := by omega
    have hs : i < NSLOTS := by unfold NSLOTS NDADDR NIADDR; omega
    rw [truncDirect]
    split
    · next hlt =>
      have hzero : keptOf fs.nindir K i = 0 := by
        unfold keptOf
        rw [base_direct h12]
        omega
      have hkept : ∀ s' < NSLOTS, i < s' → keptOf fs.nindir K s' = 0 := fun s' _ hlt' =>
        keptOf_eq_zero hzero (by omega)
      exact ih _ (by omega) (by omega) (h.step hst hs hkept (truncBlock_step h12 hst h hzero))
    · next hge =>
      have hpos : 0 < keptOf fs.nindir K i := by
        unfold keptOf
        rw [base_direct h12]
        omega
      refine (h.skip hst hs ?_ (by omega)).skipAll hst hs hpos i le_rfl
      rw [height_direct h12, pow_zero]
      omega

end

/-! ### The update of the inode -/

section

variable {fs : MExt2fs} {env : UpdateEnv} {w : World}

/-- `ext2_update` touches the flags of the inode and the written image, and nothing else. -/
theorem ext2Update_frame (fs : MExt2fs) (env : UpdateEnv) (waitfor : Bool) (w : World) :
    ∃ flag image, (ext2Update fs env waitfor w).2
        = { w with ip := { w.ip with flag := flag }, image := image } ∧
      (image = w.image ∨ image = some ⟨w.ip.size, w.ip.db, w.ip.ib⟩) := by
  have hit : ∃ flag, w.itimes = { w with ip := { w.ip with flag := flag } } := by
    unfold World.itimes
    dsimp only
    split
    · exact ⟨_, rfl⟩
    · exact ⟨w.ip.flag, rfl⟩
  obtain ⟨flag, hflag⟩ := hit
  unfold ext2Update
  simp only [hflag]
  split_ifs
  · exact ⟨_, _, rfl, .inl rfl⟩
  · exact ⟨_, _, rfl, .inl rfl⟩
  · exact ⟨_, _, rfl, .inl rfl⟩
  · exact ⟨_, _, rfl, .inr rfl⟩
  · exact ⟨_, _, rfl, .inl rfl⟩
  · exact ⟨_, _, rfl, .inr rfl⟩

/-- An inode that was changed is written, if the volume can be written to. -/
theorem ext2Update_written (waitfor : Bool) (hro : fs.ronly = false) (hread : env.inodeRead = true)
    (hwrite : env.inodeWrite = true) (hmark : w.ip.flag.change = true) :
    (ext2Update fs env waitfor w).2.image = some ⟨w.ip.size, w.ip.db, w.ip.ib⟩ := by
  have hit : w.itimes = { w with ip := { w.ip with flag := { w.ip.flag with
      access := false, change := false, update := false, modified := true } } } := by
    unfold World.itimes
    dsimp only
    rw [if_pos (.inr (.inl hmark))]
  unfold ext2Update
  rw [hit]
  simp only [hro, hread, hwrite]
  simp only [Bool.true_eq_false, Bool.false_eq_true, false_and, if_false, if_true]
  split <;> rfl

end

/-! ### The release of the blocks -/

section

variable {fs : MExt2fs} {env : TruncEnv} {K length osize : ℕ} {w : World}

/-- What the release of the blocks behind the end of a file does: the loops run from `w₁`, the state
after the update, to `u`. -/
structure ReleaseSpec (fs : MExt2fs) (env : TruncEnv) (length : ℕ) (w w₁ : World) (u : Freeing)
    (r : Option Errno × World) : Prop where
  inv : TruncInv fs env (w.store fs) w.ip (fs.coveredBlocks length) w₁ 0 u
  start : TruncStart fs (w.store fs) w.ip w₁
  result : r = (u.allerror, u.world.release u.blocksreleased length)
  dev : w₁.dev = w.dev
  avail : w₁.avail = w.avail
  freed : w₁.freed = w.freed
  panicked : w₁.panicked = w.panicked
  image : w₁.image = w.image ∨ w₁.image = some ⟨w.ip.size,
    (cutSlots fs (lastblock fs length) w).ip.db, (cutSlots fs (lastblock fs length) w).ip.ib⟩
  written : fs.ronly = false → env.inodeRead = true → env.inodeWrite = true →
    w₁.image = some ⟨w.ip.size, (cutSlots fs (lastblock fs length) w).ip.db,
      (cutSlots fs (lastblock fs length) w).ip.ib⟩

theorem truncRelease_spec (hneg : env.BadRootsUnread fs w.ip) (hs : w.Sound fs)
    (hr : ∀ s < NSLOTS, w.ip.slot s < 2 ^ 32)
    (hK : fs.coveredBlocks length ≤ base fs.nindir NSLOTS) :
    ∃ w₁ u, ReleaseSpec fs env length w w₁ u (truncRelease fs env osize length w) := by
  obtain ⟨flag, image, hup, himage⟩ :=
    ext2Update_frame fs env.toUpdateEnv (!env.async) (cutSlots fs (lastblock fs length) w).mark
  have hwritten : fs.ronly = false → env.inodeRead = true → env.inodeWrite = true →
      image = some ⟨w.ip.size, (cutSlots fs (lastblock fs length) w).ip.db,
        (cutSlots fs (lastblock fs length) w).ip.ib⟩ := by
    intro hro hread hwrite
    have h : (ext2Update fs env.toUpdateEnv (!env.async) (cutSlots fs (lastblock fs length) w).mark).2.image
        = _ := ext2Update_written (!env.async) hro hread hwrite rfl
    rw [hup] at h
    exact h
  unfold truncRelease
  simp only
  generalize hupd : ext2Update fs env.toUpdateEnv (!env.async) (cutSlots fs (lastblock fs length) w).mark = up
    at hup ⊢
  obtain ⟨allerror, w'⟩ := up
  simp only at hup
  subst hup
  simp only
  generalize hw₁ : ({ (cutSlots fs (lastblock fs length) w).mark with
    ip := { (cutSlots fs (lastblock fs length) w).mark.ip with
      flag := flag, db := w.ip.db, ib := w.ip.ib, size := osize }
    image := image } : World) = w₁
  have hstart : TruncStart fs (w.store fs) w.ip w₁ := by
    subst hw₁
    exact ⟨hs.shaped, hr, fun _ _ => rfl,
      fun s hsn => ⟨fun _ _ => rfl, fun b hb => hs.used b ⟨s, hsn, hb⟩⟩⟩
  have hlevels := truncLevels_spec hneg hstart NIADDR
    ⟨earlierError allerror env.invalidate, 0, w₁⟩ le_rfl hK (.start hstart _)
  rw [← lastblock_eq hK] at hlevels
  have hfacts : ∀ u r, TruncInv fs env (w.store fs) w.ip (fs.coveredBlocks length) w₁ 0 u →
      r = (u.allerror, u.world.release u.blocksreleased length) →
      ReleaseSpec fs env length w w₁ u r := by
    intro u r hinv hres
    subst hw₁
    exact ⟨hinv, hstart, hres, rfl, rfl, rfl, rfl, himage, hwritten⟩
  generalize truncLevels fs env (lastblock fs length) NIADDR
    ⟨earlierError allerror env.invalidate, 0, w₁⟩ = out at hlevels ⊢
  obtain ⟨done, s⟩ := out
  rcases hlevels with ⟨rfl, hinv⟩ | ⟨rfl, hle, hinv⟩
  · exact ⟨w₁, s, hfacts s _ hinv rfl⟩
  · rw [base_single] at hle
    have hdirect := truncDirect_spec hstart 12 s le_rfl hle hinv
    rw [← lastblock_eq hK] at hdirect
    exact ⟨w₁, _, hfacts _ _ hdirect rfl⟩

namespace ReleaseSpec

variable {w₁ : World} {u : Freeing} {r : Option Errno × World}

/-- The world behind a result: the loops' state but for the size and the flags of the inode. -/
theorem slot (h : ReleaseSpec fs env length w w₁ u r) {s : ℕ} (hs : s < NSLOTS) :
    r.2.ip.slot s = if keptOf fs.nindir (fs.coveredBlocks length) s = 0 then 0
      else w.ip.slot s := by
  rw [h.result]
  have hslot := h.inv.slots s hs
  simp only [Nat.zero_le, true_and] at hslot
  exact hslot

theorem releases (h : ReleaseSpec fs env length w w₁ u r) :
    ∃ evs, r.2.freed = w.freed ++ evs ∧ (evs.map FreeEvent.bno).Nodup ∧
      (∀ e ∈ evs, (∃ s < NSLOTS, SlotCut fs (w.store fs) w.ip (fs.coveredBlocks length) s e.bno) ∧
        e.image = w₁.image ∧ (env.WritesOk → ∀ b : ℕ, e.bno = b → ∀ s < NSLOTS,
          0 < keptOf fs.nindir (fs.coveredBlocks length) s →
          ¬ Mem fs.nindir (e.store fs) (height s) (w.ip.slot s) b)) ∧
      (r.1 = none → ∀ s < NSLOTS, ∀ n, SlotCut fs (w.store fs) w.ip (fs.coveredBlocks length) s n →
        n ∈ evs.map FreeEvent.bno) ∧
      ∀ x : ℕ, (x : ℤ) ∉ evs.map FreeEvent.bno → r.2.avail x = w.avail x := by
  obtain ⟨evs, hfreed, hnodup, hmem, hall, havail⟩ := h.inv.releases.freed
  rw [h.result]
  refine ⟨evs, ?_, hnodup, fun e he => ?_, fun hok s hs n hn => hall hok n ⟨s, Nat.zero_le s, hs, hn⟩,
    fun x hx => ?_⟩
  · rw [← h.freed]
    exact hfreed
  · obtain ⟨⟨s, _, hs, hcut⟩, hev⟩ := hmem e he
    exact ⟨⟨s, hs, hcut⟩, hev⟩
  · rw [← h.avail]
    exact havail x hx

theorem size_eq (h : ReleaseSpec fs env length w w₁ u r) : r.2.ip.size = length := by
  rw [h.result]
  rfl

theorem panicked_eq (h : ReleaseSpec fs env length w w₁ u r) : r.2.panicked = w.panicked := by
  rw [h.result, ← h.panicked]
  exact h.inv.releases.panicked

/-- When the indirect blocks that are kept in part could be read and written, the inode was cut. -/
theorem trims (h : ReleaseSpec fs env length w w₁ u r)
    (hio : ∀ s < NSLOTS, SlotIo fs env (w.store fs) w.ip (fs.coveredBlocks length) s) :
    MapTrims fs.nindir (w.store fs) (r.2.store fs) w.ip r.2.ip (fs.coveredBlocks length) := by
  refine .of_slots h.start.shaped (fun s hs => h.slot hs) fun s hs hpos => ?_
  have ht := h.inv.trims s hs (Nat.zero_le s) hpos (hio s hs)
  rw [h.result]
  exact ht

end ReleaseSpec

end

/-! ### The partial block -/

section

variable {fs : MExt2fs} {env : TruncEnv} {sync : Bool} {length : ℕ} {w : World}

theorem fragroundup_mono (fs : MExt2fs) {x y : ℕ} (h : x ≤ y) :
    fs.fragroundup x ≤ fs.fragroundup y :=
  Nat.mul_le_mul_right _ (Nat.div_le_div_right (Nat.add_le_add_right h _))

theorem coveredBlocks_mono {x y : ℕ} (h : x ≤ y) : fs.coveredBlocks x ≤ fs.coveredBlocks y :=
  Nat.div_le_div_right (by omega)

/-- The block that holds the new end of file is covered, if the end lies inside it. -/
theorem coveredBlocks_eq (fs : MExt2fs) (length : ℕ) : fs.coveredBlocks length
    = fs.lblkno length + if fs.blkoff length = 0 then 0 else 1 := by
  have hb := fs.bsize_pos
  have hdm := Nat.div_add_mod' length fs.bsize
  have hlt := Nat.mod_lt length hb
  unfold MExt2fs.coveredBlocks MExt2fs.lblkno MExt2fs.blkoff
  split
  · next h =>
    rw [Nat.add_zero, Nat.div_eq_iff hb]
    omega
  · next h =>
    rw [Nat.div_eq_iff hb, Nat.add_mul, Nat.one_mul]
    omega

/-- What fetching the partial block does to the inode. -/
structure PartialSpec (fs : MExt2fs) (length : ℕ) (w : World) (r : Option Errno × World) :
    Prop where
  sound : r.2.Sound fs
  owned_mono : ∀ b, w.Owned fs b → r.2.Owned fs b
  owned_fresh : ∀ b, r.2.Owned fs b → w.Owned fs b ∨ w.Fresh b
  on_path : ∀ b, r.2.Owned fs b → ¬ w.Owned fs b →
    KeptBy fs.nindir (r.2.store fs) r.2.ip (fs.coveredBlocks length) b
  map_ne : ∀ l, l ≠ fs.lblkno length ∨ fs.blkoff length = 0 ∨ w.map fs l ≠ 0 →
    r.2.map fs l = w.map fs l
  calm : r.2.image = w.image ∧ ∀ b, r.2.avail b = true → w.avail b = true
  freed : ∃ evs, r.2.freed = w.freed ++ evs ∧ ∀ e ∈ evs, r.1 ≠ none ∧
    ∃ b : ℕ, e.bno = b ∧ ¬ r.2.Owned fs b
  slots : ∀ s < NSLOTS, r.2.ip.slot s = w.ip.slot s ∨ base fs.nindir s < fs.coveredBlocks length
  panicked : r.2.panicked = w.panicked
  size : r.1 = none → r.2.ip.size = length
  fails : r.1 ≠ none → r.2.ip.size = w.ip.size ∧ ∀ l, r.2.map fs l = w.map fs l

/-- A part of a block that lies before the end of the file is there, whatever the fragment size. -/
theorem not_mappedPastEnd {lbn size : ℕ} (hin : lbn * fs.bsize + size ≤ w.ip.size) :
    ¬ w.MappedPastEnd fs lbn size := by
  rintro ⟨-, -, hlt, hround⟩
  have hoff : fs.blkoff w.ip.size = w.ip.size - lbn * fs.bsize := by
    unfold MExt2fs.blkoff
    rw [Nat.mod_eq_sub_mul_div, Nat.mul_comm]
    congr 2
    rw [Nat.div_eq_iff fs.bsize_pos]
    rw [Nat.add_mul] at hlt
    omega
  have hle := fragroundup_mono fs (show size ≤ fs.blkoff w.ip.size by omega)
  omega

theorem truncPartial_spec (env : TruncEnv) (sync : Bool) (hs : w.Sound fs) (hlen : length < w.ip.size)
    (hK : fs.coveredBlocks length ≤ base fs.nindir NSLOTS) :
    PartialSpec fs length w (truncPartial fs env sync length w) := by
  unfold truncPartial
  simp only
  split
  · next hoff =>
    exact ⟨⟨⟨hs.shaped.sep, hs.shaped.disjoint⟩, hs.used⟩, fun _ h => h, fun _ h => .inl h,
      fun _ h hn => absurd h hn, fun _ _ => rfl, ⟨rfl, fun _ h => h⟩, ⟨[], by simp [World.setSize],
      by simp⟩, fun _ _ => .inl rfl, rfl, fun _ => rfl, fun h => absurd rfl h⟩
  · next hoff =>
    have hcov := coveredBlocks_eq fs length
    rw [if_neg hoff] at hcov
    have hbound := base_nslots_lt fs
    have hlbn : i32 (fs.lblkno length : ℤ) = fs.lblkno length :=
      i32_of_lt (by omega) (by omega)
    rw [hlbn]
    have spec := ext2Balloc_spec env.balloc sync (fs.lblkno length) (fs.blkoff length) hs
    have hsound := ext2Balloc_sound env.balloc sync (fs.lblkno length) (fs.blkoff length) hs
    generalize ext2Balloc fs env.balloc sync (fs.lblkno length) (fs.blkoff length) w = r
      at spec hsound ⊢
    have hlast : fs.lblkno length < fs.coveredBlocks w.ip.size := by
      have : fs.coveredBlocks length ≤ fs.coveredBlocks w.ip.size := coveredBlocks_mono hlen.le
      omega
    have hslots : ∀ s < NSLOTS, r.2.ip.slot s = w.ip.slot s ∨
        base fs.nindir s < fs.coveredBlocks length := fun s hsn =>
      (spec.slots s hsn).imp_right fun ⟨off, hl⟩ => by
        have := (locate_eq_some.1 hl).2.2
        omega
    have hpanic : r.2.panicked = w.panicked :=
      spec.panicked.resolve_right (not_mappedPastEnd (by
        have := Nat.div_add_mod' length fs.bsize
        unfold MExt2fs.lblkno MExt2fs.blkoff
        omega))
    obtain ⟨evs, hevs, hfresh⟩ := spec.freed
    obtain ⟨e, w'⟩ := r
    have hmap : ∀ l, l ≠ fs.lblkno length ∨ fs.blkoff length = 0 ∨ w.map fs l ≠ 0 →
        w'.map fs l = w.map fs l := by
      rintro l (hl | hl | hl)
      · exact spec.grows.map_ne l hl
      · exact absurd hl hoff
      · by_cases heq : l = fs.lblkno length
        · exact heq ▸ spec.found (heq ▸ hl)
        · exact spec.grows.map_ne l heq
    have hon : ∀ b, w'.Owned fs b → ¬ w.Owned fs b →
        KeptBy fs.nindir (w'.store fs) w'.ip (fs.coveredBlocks length) b := by
      rw [hcov]
      exact spec.grows.on_path
    cases e with
    | some e =>
      exact ⟨hsound, spec.grows.owns_mono, spec.grows.owns_fresh, hon, hmap,
        ⟨spec.calm.image, spec.calm.avail⟩, ⟨evs, hevs, fun ev he => by
          obtain ⟨hfail, b, hb, _, hown⟩ := hfresh ev he
          exact ⟨hfail, b, hb, hown⟩⟩, hslots, hpanic, fun h => absurd h (by simp), fun h =>
          ⟨spec.calm.size, fun l => by
            by_cases heq : l = fs.lblkno length
            · exact heq ▸ spec.failed h
            · exact spec.grows.map_ne l heq⟩⟩
    | none =>
      exact ⟨⟨⟨hsound.shaped.sep, hsound.shaped.disjoint⟩, hsound.used⟩, spec.grows.owns_mono,
        spec.grows.owns_fresh, hon, hmap, ⟨spec.calm.image, spec.calm.avail⟩,
        ⟨evs, hevs, fun ev he => absurd rfl (hfresh ev he).1⟩, hslots, hpanic, fun _ => rfl,
        fun h => absurd rfl h⟩

end

end Ext2fs
