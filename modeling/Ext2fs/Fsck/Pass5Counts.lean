import Ext2fs.Fsck.Pass5
import Mathlib.Data.List.Count

/-!
# When the bitmaps that `pass5` makes are right

The loops of `pass5` agree with each other in groups that fill their bitmaps, whose last byte of inodes
has no free one, and whose inodes all exist.

* `Countable` — the condition;
* **`Countable.group`** — it is enough;
* **`countable_of`** — it is needed.
-/

namespace Ext2fs.Fsck

/-! ### The condition for the counts -/

/-- The volumes whose groups `pass5` counts right. -/
structure Countable (fs : SbImage) (statemap : ℕ → InoState) : Prop where
  bpg : fs.e2fs_bpg.toNat = NBBY * fs.bsize
  ipg : fs.e2fs_ipg.toNat ≤ NBBY * fs.bsize
  /-- the loop over the blocks of a group has a round -/
  run : ∀ c < fs.gcount, fs.dbase c < fs.dbase (c + 1)
  low : 2 ^ 31 ≤ fs.e2fs_first_dblock.toNat → fs.e2fs_bcount.toNat ≤ fs.e2fs_first_dblock.toNat
  /-- no inode is free whose bit is in a byte that is filled in -/
  lastByte : ∀ c < fs.gcount, ∀ i < fs.e2fs_ipg.toNat, fs.e2fs_ipg.toNat / NBBY ≤ i / NBBY →
    fs.Taken statemap (fs.inodeOf c i)
  icount : ∀ c < fs.gcount, ∀ i < fs.e2fs_ipg.toNat, fs.e2fs_icount.toNat < fs.inodeOf c i →
    Reserved (fs.inodeOf c i)
  dirs : ∀ c < fs.gcount, ∀ i < fs.e2fs_ipg.toNat, Reserved (fs.inodeOf c i) →
    (statemap (fs.inodeOf c i)).isDir = false

section

variable {fs : SbImage} {f : Found} {statemap : ℕ → InoState} {c : ℕ}

namespace SbImage

/-! ### The blocks of a group -/

/-- A group has as many rounds as blocks, or none. -/
theorem rounds_eq (hbpg : fs.e2fs_bpg.toNat ≠ 0) (c : ℕ) :
    fs.rounds c = if fs.dbase c < fs.dbase (c + 1) then fs.e2fs_bpg.toNat else 0 := by
  have hpos : 0 < fs.e2fs_bpg.toNat := Nat.pos_of_ne_zero hbpg
  have hlt := fs.e2fs_bpg.isLt
  have hnext : (c + 1) * fs.e2fs_bpg.toNat + fs.e2fs_first_dblock.toNat =
      c * fs.e2fs_bpg.toNat + fs.e2fs_first_dblock.toNat + fs.e2fs_bpg.toNat := by ring
  unfold rounds dbase
  rw [hnext]
  generalize c * fs.e2fs_bpg.toNat + fs.e2fs_first_dblock.toNat = x
  unfold i32 u32
  split_ifs <;> omega

theorem rounds_le (hbpg : fs.e2fs_bpg.toNat ≠ 0) (c : ℕ) : fs.rounds c ≤ fs.e2fs_bpg.toNat := by
  rw [rounds_eq hbpg]
  split <;> omega

/-- The first blocks of the groups, where each group has its rounds. -/
theorem dbase_eq (hbpg : fs.e2fs_bpg.toNat ≠ 0) {n : ℕ}
    (hrun : ∀ c < n, fs.dbase c < fs.dbase (c + 1)) (c : ℕ) (hc : c ≤ n) :
    fs.dbase c = fs.dbase 0 + (c * fs.e2fs_bpg.toNat : ℕ) := by
  induction c with
  | zero => simp
  | succ c ih =>
    have hlt := hrun c (by omega)
    have hrounds := rounds_eq hbpg c
    rw [if_pos hlt] at hrounds
    unfold rounds at hrounds
    have hprev := ih (by omega)
    rw [Nat.succ_mul]
    omega

theorem dbase_range (fs : SbImage) (c : ℕ) : -2 ^ 31 ≤ fs.dbase c ∧ fs.dbase c < 2 ^ 31 := by
  unfold dbase i32
  split_ifs <;> omega

/-- The blocks of all groups are a word. -/
theorem blocks_lt (hbpg : fs.e2fs_bpg.toNat ≠ 0) (hrun : ∀ c < fs.gcount, fs.dbase c < fs.dbase (c + 1)) :
    fs.gcount * fs.e2fs_bpg.toNat < 2 ^ 32 := by
  have hlast := dbase_eq hbpg hrun fs.gcount le_rfl
  have h0 := fs.dbase_range 0
  have hn := fs.dbase_range fs.gcount
  omega

/-- A variable of the loop, as an unsigned number, is the number of the block. -/
theorem u32_dbase (fs : SbImage) (c i : ℕ) : u32 (fs.dbase c + i) = fs.blockOf c i := by
  unfold dbase blockOf
  generalize c * fs.e2fs_bpg.toNat + fs.e2fs_first_dblock.toNat = x
  unfold i32 u32
  split_ifs <;> omega

/-- **The bit of a block is right**, unless its number is negative in a `daddr32_t`. -/
theorem marked_iff {i : ℕ} (hi : fs.dbase c + i < 2 ^ 31)
    (hlow : fs.dbase c + i < 0 → fs.e2fs_bcount.toNat ≤ fs.blockOf c i) :
    fs.Marked f (fs.dbase c + i) ↔ fs.Used f.blockmap (fs.blockOf c i) := by
  unfold Marked Used testbmap
  have hblk := fs.u32_dbase c i
  rw [hblk]
  by_cases hneg : fs.dbase c + i < 0
  · exact iff_of_true (.inr (hlow hneg)) (.inr (hlow hneg))
  · have hd : (fs.dbase c + i).toNat = fs.blockOf c i := by
      rw [← hblk]
      unfold u32
      omega
    by_cases hb : fs.e2fs_bcount.toNat ≤ fs.blockOf c i
    · exact iff_of_true (.inr hb) (.inr hb)
    · rw [if_pos ⟨by omega, by omega⟩, hd]

end SbImage

/-! ### Counting -/

theorem clear_eq {n : ℕ} (p : ℕ → Bool) :
    clear (fun k : Fin n => p k) = (List.range n).countP fun i => !p i := by
  unfold clear
  rw [← List.map_coe_finRange_eq_range, List.countP_map]
  rfl

/-- Where one of two numbers counts less, and they are equal, the same was counted. -/
theorem imp_of_countP_eq {α : Type} {p q : α → Bool} {l : List α}
    (himp : ∀ x ∈ l, q x = true → p x = true) (heq : l.countP p = l.countP q) :
    ∀ x ∈ l, p x = true → q x = true := by
  induction l with
  | nil => exact fun x hx => absurd hx List.not_mem_nil
  | cons y l ih =>
    have htail : ∀ x ∈ l, q x = true → p x = true := fun x hx => himp x (List.mem_cons_of_mem _ hx)
    have hle : l.countP q ≤ l.countP p := List.countP_mono_left htail
    have hhead := himp y (List.mem_cons_self ..)
    rw [List.countP_cons, List.countP_cons] at heq
    intro x hx hp
    rcases List.mem_cons.1 hx with rfl | hx
    · by_contra hq
      rw [if_pos hp, if_neg hq] at heq
      omega
    · refine ih htail ?_ x hx hp
      by_cases hq : q y = true
      · rw [if_pos hq, if_pos (hhead hq)] at heq
        omega
      · rw [if_neg hq] at heq
        omega

theorem countP_not_range (n : ℕ) (p : ℕ → Bool) :
    ((List.range n).countP fun i => !p i) = n - (List.range n).countP p := by
  have hsum := List.length_eq_countP_add_countP p (l := List.range n)
  rw [List.length_range] at hsum
  have hnot : (fun i => decide ¬p i = true) = fun i => !p i := by
    funext i
    cases p i <;> rfl
  rw [hnot] at hsum
  omega

/-! ### The bitmaps that are made -/

namespace SbImage

theorem bbmap_eq (fs : SbImage) (f : Found) (c : ℕ) :
    fs.bbmap f c = fun k => decide (k.1 < fs.rounds c ∧ fs.Marked f (fs.dbase c + k.1)) := by
  show (fun k : Fin (NBBY * fs.bsize) => (fs.blockMap f c).bbmap k.1) = _
  funext k
  rw [blockMap_bbmap]

theorem ibmap_eq (fs : SbImage) (statemap : ℕ → InoState) (c : ℕ) :
    fs.ibmap statemap c = fun k => decide (fs.e2fs_ipg.toNat / NBBY ≤ k.1 / NBBY ∨
      k.1 < fs.e2fs_ipg.toNat ∧ fs.Taken statemap (fs.firstIno c + k.1)) := by
  funext k
  unfold ibmap fillUnused
  rw [inodeMap_ibmap, Bool.decide_or]

/-- The numbers of the inodes do not wrap. -/
theorem firstIno_add (hle : fs.e2fs_ipg.toNat ≤ fs.e2fs_bpg.toNat) (hbpg : fs.e2fs_bpg.toNat ≠ 0)
    (h2 : 1 < fs.e2fs_bpg.toNat) (hrun : ∀ c < fs.gcount, fs.dbase c < fs.dbase (c + 1))
    (hc : c < fs.gcount) (i : ℕ) : fs.firstIno c + i = fs.inodeOf c i := by
  have hlt := blocks_lt hbpg hrun
  have hmul : c * fs.e2fs_ipg.toNat ≤ c * fs.e2fs_bpg.toNat := Nat.mul_le_mul_left c hle
  have hnext : (c + 1) * fs.e2fs_bpg.toNat ≤ fs.gcount * fs.e2fs_bpg.toNat :=
    Nat.mul_le_mul_right _ hc
  rw [Nat.succ_mul] at hnext
  unfold firstIno inodeOf
  rw [u32_of_lt (by rw [mul_comm]; omega), mul_comm]
  omega

/-- The right block bitmap of a group. -/
def blockBits (fs : SbImage) (blockmap : ℕ → Bool) (c : ℕ) : fs.Bits := fun k =>
  decide (fs.Used blockmap (fs.blockOf c k))

/-- The right inode bitmap of a group. -/
def inodeBits (fs : SbImage) (statemap : ℕ → InoState) (c : ℕ) : fs.Bits := fun k =>
  decide (fs.e2fs_ipg.toNat ≤ k ∨ fs.Taken statemap (fs.inodeOf c k))

/-- The inode bitmap is the right one, but for the last inodes of the group. -/
theorem ibmap_bit (hino : ∀ i, fs.firstIno c + i = fs.inodeOf c i)
    (k : Fin (NBBY * fs.bsize)) (hk : fs.e2fs_ipg.toNat / NBBY ≤ k.1 / NBBY →
      k.1 < fs.e2fs_ipg.toNat → fs.Taken statemap (fs.inodeOf c k)) :
    fs.ibmap statemap c k = fs.inodeBits statemap c k := by
  rw [ibmap_eq]
  unfold inodeBits
  simp only [hino]
  congr 1
  have hdiv : fs.e2fs_ipg.toNat ≤ k → fs.e2fs_ipg.toNat / NBBY ≤ k.1 / NBBY :=
    fun h => Nat.div_le_div_right h
  by_cases hlt : k.1 < fs.e2fs_ipg.toNat
  · have hnot : ¬fs.e2fs_ipg.toNat ≤ k := by omega
    simp only [hlt, true_and, hnot, false_or, eq_iff_iff]
    exact ⟨fun h => h.elim (fun hb => hk hb hlt) id, .inr⟩
  · exact propext (iff_of_true (.inl (hdiv (by omega))) (.inl (by omega)))

theorem clear_inodeBits (hipg : fs.e2fs_ipg.toNat ≤ NBBY * fs.bsize) (c : ℕ) :
    clear (fs.inodeBits statemap c) = fs.e2fs_ipg.toNat -
      (List.range fs.e2fs_ipg.toNat).countP fun i => decide (fs.Taken statemap (fs.inodeOf c i)) := by
  have hclear := clear_eq (n := NBBY * fs.bsize) fun i =>
    decide (fs.e2fs_ipg.toNat ≤ i ∨ fs.Taken statemap (fs.inodeOf c i))
  obtain ⟨r, hr⟩ := Nat.exists_eq_add_of_le hipg
  have hsplit : ∀ p : ℕ → Bool, (∀ i, fs.e2fs_ipg.toNat ≤ i → p i = false) →
      (List.range (NBBY * fs.bsize)).countP p = (List.range fs.e2fs_ipg.toNat).countP p := by
    intro p hp
    rw [hr, List.range_add, List.countP_append, Nat.add_eq_left, List.countP_eq_zero]
    intro i hi
    obtain ⟨j, -, rfl⟩ := List.mem_map.1 hi
    rw [hp _ (Nat.le_add_right ..)]
    exact Bool.false_ne_true
  unfold inodeBits
  rw [hclear, hsplit _ fun i hi => by simp [hi], ← countP_not_range]
  refine List.countP_congr fun i hi => ?_
  have hlt : ¬fs.e2fs_ipg.toNat ≤ i := by
    have := List.mem_range.1 hi
    omega
  simp [hlt]

end SbImage

/-! ### The counts of a group -/

theorem fixCounts_eq {nb ni nd : ℕ} (hnb : nb < 2 ^ 16) (hni : ni < 2 ^ 16) (hnd : nd < 2 ^ 16)
    (g : GroupCounts) : fixCounts nb ni nd g = ⟨nb, ni, nd⟩ := by
  unfold fixCounts
  split
  case isTrue h => exact h
  case isFalse => rw [Nat.mod_eq_of_lt hnb, Nat.mod_eq_of_lt hni, Nat.mod_eq_of_lt hnd]

theorem fixCounts_zero {ni nd : ℕ} (g : GroupCounts) : (fixCounts 0 ni nd g).nbfree = 0 := by
  unfold fixCounts
  split
  case isTrue h => rw [h]
  case isFalse => rfl

section

variable (hsize : fs.bsize = 1024 ∨ fs.bsize = 2048 ∨ fs.bsize = 4096)

include hsize

/-- A bitmap has fewer bits than a count can hold. -/
theorem bits_lt : 1 < NBBY * fs.bsize ∧ NBBY * fs.bsize < 2 ^ 16 := by
  unfold NBBY
  omega

theorem countP_lt {n : ℕ} (hn : n ≤ NBBY * fs.bsize) (p : ℕ → Bool) :
    (List.range n).countP p < 2 ^ 16 := by
  have hle : (List.range n).countP p ≤ (List.range n).length := List.countP_le_length
  rw [List.length_range] at hle
  have := bits_lt hsize
  omega

/-- The counts of a group, where the groups fill their bitmaps. -/
theorem counts_eq (hbpg : fs.e2fs_bpg.toNat = NBBY * fs.bsize)
    (hipg : fs.e2fs_ipg.toNat ≤ NBBY * fs.bsize) (c : ℕ) (g : GroupCounts) :
    fixCounts (fs.blockMap f c).nbfree (fs.inodeMap f.statemap c).nifree
        (fs.inodeMap f.statemap c).ndirs g =
      ⟨(fs.blockMap f c).nbfree, (fs.inodeMap f.statemap c).nifree,
        (fs.inodeMap f.statemap c).ndirs⟩ := by
  have hbits := bits_lt hsize
  have hrounds : fs.rounds c ≤ fs.e2fs_bpg.toNat := SbImage.rounds_le (by omega) c
  refine fixCounts_eq ?_ ?_ ?_ g
  · rw [SbImage.blockMap_nbfree]
    exact countP_lt hsize (by omega) _
  · rw [SbImage.inodeMap_nifree]
    omega
  · rw [SbImage.inodeMap_ndirs]
    exact countP_lt hsize hipg _

end

/-! ### The condition is enough -/

/-- A block whose number is negative in a `daddr32_t` is not there. -/
theorem low_of (hbpg : fs.e2fs_bpg.toNat ≠ 0) (hrun : ∀ c < fs.gcount, fs.dbase c < fs.dbase (c + 1))
    (hlow : 2 ^ 31 ≤ fs.e2fs_first_dblock.toNat →
      fs.e2fs_bcount.toNat ≤ fs.e2fs_first_dblock.toNat) (hc : c < fs.gcount) (i : ℕ)
    (hneg : fs.dbase c + i < 0) : fs.e2fs_bcount.toNat ≤ fs.blockOf c i := by
  have hbase := SbImage.dbase_eq hbpg hrun c hc.le
  have hfirst := fs.e2fs_first_dblock.isLt
  have h0 : fs.dbase 0 = i32 fs.e2fs_first_dblock.toNat := by
    unfold SbImage.dbase
    rw [Nat.zero_mul, Nat.zero_add, u32_of_lt hfirst]
  have hhigh : 2 ^ 31 ≤ fs.e2fs_first_dblock.toNat := by
    by_contra hlt
    rw [i32_of_lt (by omega) (by omega)] at h0
    omega
  rw [i32_neg hhigh hfirst] at h0
  refine (hlow hhigh).trans ?_
  unfold SbImage.blockOf
  rw [u32_of_lt (by omega)]
  omega

namespace Countable

variable (h : Countable fs f.statemap)
  (hsize : fs.bsize = 1024 ∨ fs.bsize = 2048 ∨ fs.bsize = 4096) (hc : c < fs.gcount)

include h hsize hc

theorem bbmap : fs.bbmap f c = fs.blockBits f.blockmap c := by
  have hbits := bits_lt hsize
  have hbpg : fs.e2fs_bpg.toNat ≠ 0 := by
    rw [h.bpg]
    omega
  have hrounds := SbImage.rounds_eq hbpg c
  rw [if_pos (h.run c hc)] at hrounds
  have hend := fs.dbase_range (c + 1)
  have hnext : fs.dbase (c + 1) = fs.dbase c + fs.e2fs_bpg.toNat := by
    unfold SbImage.rounds at hrounds
    omega
  rw [SbImage.bbmap_eq]
  funext k
  have hk : k.1 < fs.e2fs_bpg.toNat := by
    rw [h.bpg]
    exact k.isLt
  have hmarked : fs.Marked f (fs.dbase c + k.1) ↔ fs.Used f.blockmap (fs.blockOf c k) :=
    SbImage.marked_iff (by omega) (low_of hbpg h.run h.low hc k)
  unfold SbImage.blockBits
  rw [hrounds]
  simp only [hk, true_and, hmarked]

theorem firstIno (i : ℕ) : fs.firstIno c + i = fs.inodeOf c i := by
  have hbits := bits_lt hsize
  have hbpg := h.bpg
  exact SbImage.firstIno_add (hbpg ▸ h.ipg) (by omega) (by omega) h.run hc i

theorem ibmap : fs.ibmap f.statemap c = fs.inodeBits f.statemap c := by
  funext k
  exact SbImage.ibmap_bit (h.firstIno hsize hc) k fun hb hlt => h.lastByte c hc k hlt hb

theorem nbfree : (fs.blockMap f c).nbfree = clear (fs.blockBits f.blockmap c) := by
  rw [← h.bbmap hsize hc, SbImage.bbmap_eq, SbImage.blockMap_nbfree]
  have hbits := bits_lt hsize
  have hbpg : fs.e2fs_bpg.toNat ≠ 0 := by
    rw [h.bpg]
    omega
  have hrounds := SbImage.rounds_eq hbpg c
  rw [if_pos (h.run c hc), h.bpg] at hrounds
  have hclear := clear_eq (n := NBBY * fs.bsize) fun i : ℕ =>
    decide (i < fs.rounds c ∧ fs.Marked f (fs.dbase c + i))
  rw [hclear, hrounds]
  refine List.countP_congr fun i hi => ?_
  have hlt : i < NBBY * fs.bsize := List.mem_range.1 hi
  simp [hlt]

theorem nifree : (fs.inodeMap f.statemap c).nifree = clear (fs.inodeBits f.statemap c) := by
  rw [SbImage.inodeMap_nifree, SbImage.clear_inodeBits h.ipg]
  congr 1
  refine List.countP_congr fun i hi => ?_
  rw [h.firstIno hsize hc, decide_eq_true_iff, decide_eq_true_iff]
  have hcount := h.icount c hc i (List.mem_range.1 hi)
  unfold SbImage.Counted SbImage.Taken
  tauto

theorem ndirs : (fs.inodeMap f.statemap c).ndirs =
    (List.range fs.e2fs_ipg.toNat).countP fun i => (f.statemap (fs.inodeOf c i)).isDir := by
  rw [SbImage.inodeMap_ndirs]
  refine List.countP_congr fun i hi => ?_
  rw [h.firstIno hsize hc, decide_eq_true_iff]
  have hcount := h.icount c hc i (List.mem_range.1 hi)
  have hdirs := h.dirs c hc i (List.mem_range.1 hi)
  unfold SbImage.CountedDir
  constructor
  · exact fun hd => hd.2.2
  · intro hd
    have hres : ¬Reserved (fs.inodeOf c i) := fun hr => by
      rw [hdirs hr] at hd
      exact Bool.false_ne_true hd
    exact ⟨hres, fun hlt => hres (hcount hlt), hd⟩

/-- The counts that a descriptor gets. -/
theorem counts (g : GroupCounts) :
    fixCounts (fs.blockMap f c).nbfree (fs.inodeMap f.statemap c).nifree
        (fs.inodeMap f.statemap c).ndirs g =
      ⟨clear (fs.blockBits f.blockmap c), clear (fs.inodeBits f.statemap c),
        (List.range fs.e2fs_ipg.toNat).countP fun i => (f.statemap (fs.inodeOf c i)).isDir⟩ := by
  rw [counts_eq hsize h.bpg h.ipg, h.nbfree hsize hc, h.nifree hsize hc, h.ndirs hsize hc]

omit hsize hc in
/-- **The bitmaps and the counts of a group are right.** -/
theorem group : GroupRight fs f c (fs.blockBits f.blockmap c) (fs.inodeBits f.statemap c)
    ⟨clear (fs.blockBits f.blockmap c), clear (fs.inodeBits f.statemap c),
      (List.range fs.e2fs_ipg.toNat).countP fun i => (f.statemap (fs.inodeOf c i)).isDir⟩ where
  blocks i hi := ⟨h.bpg ▸ hi, decide_eq_true_iff⟩
  inodes i hi := by
    refine ⟨hi.trans_le h.ipg, ?_⟩
    unfold SbImage.inodeBits
    have hnot : ¬fs.e2fs_ipg.toNat ≤ i := by omega
    simp [hnot]
  blockPadding k hk := by
    have hlt := k.isLt
    rw [h.bpg] at hk
    omega
  inodePadding k hk := decide_eq_true (.inl hk)
  nbfree := rfl
  nifree := rfl
  ndirs := rfl

end Countable

/-! ### The condition is needed -/

section

variable {blockmap : ℕ → Bool}
  (hbpg : fs.e2fs_bpg.toNat ≠ 0)
  (hsize : fs.bsize = 1024 ∨ fs.bsize = 2048 ∨ fs.bsize = 4096)
  (hright : ∀ around, ∀ c < fs.gcount, ∃ g, GroupRight fs ⟨blockmap, around, statemap⟩ c
    (fs.bbmap ⟨blockmap, around, statemap⟩ c) (fs.ibmap statemap c)
    (fixCounts (fs.blockMap ⟨blockmap, around, statemap⟩ c).nbfree
      (fs.inodeMap statemap c).nifree (fs.inodeMap statemap c).ndirs g))

include hbpg hright

/-- A group fills its bitmap. -/
theorem bpg_of (hpos : 0 < fs.gcount) : fs.e2fs_bpg.toNat = NBBY * fs.bsize := by
  obtain ⟨g, hg⟩ := hright (fun _ => false) 0 hpos
  obtain ⟨hle, -⟩ := hg.blocks (fs.e2fs_bpg.toNat - 1) (by omega)
  by_contra hne
  have hlt : fs.e2fs_bpg.toNat < NBBY * fs.bsize := by omega
  have hpad := hg.blockPadding ⟨fs.e2fs_bpg.toNat, hlt⟩ le_rfl
  have hrounds : fs.rounds 0 ≤ fs.e2fs_bpg.toNat := SbImage.rounds_le hbpg 0
  rw [SbImage.bbmap_eq] at hpad
  have hround := (of_decide_eq_true hpad).1
  dsimp only at hround
  omega

include hsize

/-- Without a round the bitmap of a group is clear, and no block is counted. -/
theorem run_of (hc : c < fs.gcount) : fs.dbase c < fs.dbase (c + 1) := by
  obtain ⟨g, hg⟩ := hright (fun _ => false) c hc
  by_contra hnot
  have hrounds := SbImage.rounds_eq hbpg c
  rw [if_neg hnot] at hrounds
  have hbits := bits_lt hsize
  have hcount := hg.nbfree
  rw [SbImage.blockMap_nbfree, hrounds, List.range_zero, List.countP_nil, fixCounts_zero,
    SbImage.bbmap_eq, hrounds] at hcount
  have hclear : clear (fun _ : Fin (NBBY * fs.bsize) => false) = NBBY * fs.bsize := by
    rw [clear_eq fun _ => false, List.countP_eq_length.2 fun _ _ => by decide, List.length_range]
  simp only [Nat.not_lt_zero, false_and, decide_false] at hcount
  omega

/-- Block `e2fs_first_dblock` is looked up in the map. -/
theorem low_needed (hpos : 0 < fs.gcount) (hhigh : 2 ^ 31 ≤ fs.e2fs_first_dblock.toNat) :
    fs.e2fs_bcount.toNat ≤ fs.e2fs_first_dblock.toNat := by
  obtain ⟨g, hg⟩ := hright (fun _ => !blockmap fs.e2fs_first_dblock.toNat) 0 hpos
  obtain ⟨hlt, hbit⟩ := hg.blocks 0 (Nat.pos_of_ne_zero hbpg)
  have hrun := run_of hbpg hsize hright hpos
  have hrounds := SbImage.rounds_eq hbpg 0
  rw [if_pos hrun] at hrounds
  have hblk : fs.blockOf 0 0 = fs.e2fs_first_dblock.toNat := by
    unfold SbImage.blockOf
    rw [Nat.zero_mul, Nat.zero_add, Nat.add_zero, u32_of_lt fs.e2fs_first_dblock.isLt]
  have hu := fs.u32_dbase 0 0
  rw [hblk] at hu
  have hneg : ¬(0 ≤ fs.dbase 0 + (0 : ℕ)) := by
    have hrange := fs.dbase_range 0
    unfold u32 at hu
    omega
  by_contra hb
  rw [SbImage.bbmap_eq, hblk, decide_eq_true_iff] at hbit
  unfold SbImage.Marked SbImage.Used SbImage.testbmap at hbit
  dsimp only at hbit
  rw [hu, if_neg fun hc => hneg hc.1, hrounds] at hbit
  cases hm : blockmap fs.e2fs_first_dblock.toNat <;> simp [hm] at hbit <;> omega

/-- **The condition is needed.** -/
theorem countable_of (hpos : 0 < fs.gcount) : Countable fs statemap := by
  have hfull := bpg_of hbpg hright hpos
  have hrun : ∀ c < fs.gcount, fs.dbase c < fs.dbase (c + 1) := fun c hc =>
    run_of hbpg hsize hright hc
  have hbits := bits_lt hsize
  have hipg : fs.e2fs_ipg.toNat ≤ NBBY * fs.bsize := by
    obtain ⟨g, hg⟩ := hright (fun _ => false) 0 hpos
    by_contra hlt
    obtain ⟨h, -⟩ := hg.inodes (fs.e2fs_ipg.toNat - 1) (by omega)
    omega
  have hino : ∀ c < fs.gcount, ∀ i, fs.firstIno c + i = fs.inodeOf c i := fun c hc =>
    SbImage.firstIno_add (hfull ▸ hipg) hbpg (by omega) hrun hc
  have hlast : ∀ c < fs.gcount, ∀ i < fs.e2fs_ipg.toNat, fs.e2fs_ipg.toNat / NBBY ≤ i / NBBY →
      fs.Taken statemap (fs.inodeOf c i) := by
    intro c hc i hi hb
    obtain ⟨g, hg⟩ := hright (fun _ => false) c hc
    obtain ⟨h, hbit⟩ := hg.inodes i hi
    rw [SbImage.ibmap_eq] at hbit
    exact hbit.1 (decide_eq_true (.inl hb))
  have hmap : ∀ c < fs.gcount, fs.ibmap statemap c = fs.inodeBits statemap c := fun c hc =>
    funext fun k => SbImage.ibmap_bit (hino c hc) k fun hb hlt => hlast c hc k hlt hb
  refine ⟨hfull, hipg, hrun, low_needed hbpg hsize hright hpos, hlast, fun c hc i hi hlt => ?_,
    fun c hc i hi hres => ?_⟩
  · obtain ⟨g, hg⟩ := hright (fun _ => false) c hc
    have hcount := hg.nifree
    rw [counts_eq hsize hfull hipg, hmap c hc, SbImage.clear_inodeBits hipg] at hcount
    dsimp only at hcount
    rw [SbImage.inodeMap_nifree] at hcount
    simp only [hino c hc] at hcount
    have hle : ∀ p : ℕ → Bool, (List.range fs.e2fs_ipg.toNat).countP p ≤ fs.e2fs_ipg.toNat := fun p => by
      have := List.countP_le_length (p := p) (l := List.range fs.e2fs_ipg.toNat)
      rwa [List.length_range] at this
    have hle₁ := hle fun i => decide (fs.Taken statemap (fs.inodeOf c i))
    have hle₂ := hle fun i => decide (fs.Counted statemap (fs.inodeOf c i))
    have hcounted := imp_of_countP_eq
      (p := fun i => decide (fs.Taken statemap (fs.inodeOf c i)))
      (q := fun i => decide (fs.Counted statemap (fs.inodeOf c i)))
      (fun i _ hq => by
        have hq' := of_decide_eq_true hq
        refine decide_eq_true ?_
        unfold SbImage.Counted at hq'
        unfold SbImage.Taken
        tauto) (by omega) i (List.mem_range.2 hi) (decide_eq_true (.inr (.inl hlt)))
    exact (of_decide_eq_true hcounted).resolve_right fun hn => hn.1 hlt
  · obtain ⟨g, hg⟩ := hright (fun _ => false) c hc
    have hcount := hg.ndirs
    rw [counts_eq hsize hfull hipg] at hcount
    dsimp only at hcount
    rw [SbImage.inodeMap_ndirs] at hcount
    simp only [hino c hc] at hcount
    by_contra hdir
    have hcounted := imp_of_countP_eq
      (p := fun i => (statemap (fs.inodeOf c i)).isDir)
      (q := fun i => decide (fs.CountedDir statemap (fs.inodeOf c i)))
      (fun i _ hq => (of_decide_eq_true hq).2.2) hcount.symm i (List.mem_range.2 hi)
      (by simpa using hdir)
    exact (of_decide_eq_true hcounted).1 hres

end

end

end Ext2fs.Fsck
