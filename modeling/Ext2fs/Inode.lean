import Ext2fs.Basic
import Ext2fs.Lib.PtrTree

/-!
# The in-core inode and the block map it stands for

`Inode` is the part of `struct inode` that block allocation, truncation and the data path read and
write.  The rest of the file says what its pointers mean, independently of the code that walks them:
the fifteen slots `i_db[0..11]`, `i_ib[0..2]` are the roots of pointer trees of height 0, 1, 2 and 3,
laid out one after the other over the logical blocks of the file.

* `locate` — the slot and the offset in it that serve a logical block;
* `blockMap` — the physical block of a logical block, `0` in a hole;
* `Owns` — the blocks the inode refers to, indirect blocks included;
* `TreeShaped` — no block is referenced twice.
-/

namespace Ext2fs

open PtrTree

/-- The bits of `i_flag` that the modelled functions set, clear or test. -/
structure IFlag where
  /-- `IN_ACCESS` -/
  access : Bool
  /-- `IN_CHANGE` -/
  change : Bool
  /-- `IN_UPDATE` -/
  update : Bool
  /-- `IN_MODIFIED` -/
  modified : Bool
  /-- `IN_LAZYMOD` -/
  lazymod : Bool
  /-- `IN_LAZYACCESS` -/
  lazyaccess : Bool
  deriving DecidableEq, Repr

/-- `i_flag |= IN_CHANGE | IN_UPDATE` -/
def IFlag.markChanged (f : IFlag) : IFlag := { f with change := true, update := true }

/-- The in-core inode of a block-mapped file. -/
structure Inode where
  /-- `i_block_group` -/
  blockGroup : ℕ
  /-- `i_next_alloc_block` -/
  nextAllocBlock : ℕ
  /-- `i_next_alloc_goal` -/
  nextAllocGoal : ℕ
  /-- `i_flag` -/
  flag : IFlag
  /-- `i_size` -/
  size : ℕ
  /-- `i_blocks`, in 512-byte units -/
  blocks : ℕ
  /-- `i_db`, the direct pointers -/
  db : ℕ → ℕ
  /-- `i_ib`, the roots of the indirect blocks -/
  ib : ℕ → ℕ

/-- The inode of an empty file. -/
def emptyInode : Inode where
  blockGroup := 0
  nextAllocBlock := 0
  nextAllocGoal := 0
  flag := ⟨false, false, false, false, false, false⟩
  size := 0
  blocks := 0
  db := fun _ => 0
  ib := fun _ => 0

/-! ### The fifteen slots -/

/-- The number of pointer slots in an inode. -/
def NSLOTS : ℕ := NDADDR + NIADDR

/-- The height of the tree below a slot. -/
def height (r : ℕ) : ℕ := r + 1 - NDADDR

/-- The first logical block below a slot. -/
def base (N r : ℕ) : ℕ :=
  if r < NDADDR then r else NDADDR + ∑ j ∈ Finset.range (r - NDADDR), N ^ (j + 1)

/-- The pointer in a slot. -/
def Inode.slot (ip : Inode) (r : ℕ) : ℕ := if r < NDADDR then ip.db r else ip.ib (r - NDADDR)

/-- The slot a logical block lies below, and its offset there. -/
def locate (N lbn : ℕ) : Option (ℕ × ℕ) :=
  if lbn < NDADDR then some (lbn, 0)
  else if lbn < NDADDR + N then some (12, lbn - NDADDR)
  else if lbn < NDADDR + N + N ^ 2 then some (13, lbn - (NDADDR + N))
  else if lbn < NDADDR + N + N ^ 2 + N ^ 3 then some (14, lbn - (NDADDR + N + N ^ 2))
  else none

@[simp] theorem height_direct {r : ℕ} (h : r < 12) : height r = 0 := by
  unfold height NDADDR
  omega

@[simp] theorem height_single : height 12 = 1 := rfl

@[simp] theorem height_double : height 13 = 2 := rfl

@[simp] theorem height_triple : height 14 = 3 := rfl

@[simp] theorem base_direct {N r : ℕ} (h : r < 12) : base N r = r := by
  simp [base, NDADDR, h]

@[simp] theorem base_single (N : ℕ) : base N 12 = 12 := by
  simp [base, NDADDR]

@[simp] theorem base_double (N : ℕ) : base N 13 = 12 + N := by
  simp [base, NDADDR]

@[simp] theorem base_triple (N : ℕ) : base N 14 = 12 + N + N ^ 2 := by
  simp [base, NDADDR, Finset.sum_range_succ]
  ring

/-- The blocks below a slot end where those below the next one begin. -/
theorem base_succ (N r : ℕ) : base N (r + 1) = base N r + N ^ height r := by
  unfold base height NDADDR
  rcases lt_trichotomy r 11 with h | rfl | h
  · rw [if_pos (by omega), if_pos (by omega), show r + 1 - 12 = 0 by omega, pow_zero]
  · simp
  · obtain ⟨j, rfl⟩ : ∃ j, r = 12 + j := ⟨r - 12, by omega⟩
    rw [if_neg (by omega), if_neg (by omega), show 12 + j + 1 - 12 = j + 1 by omega,
      show 12 + j - 12 = j by omega, Finset.sum_range_succ, Nat.add_assoc]

theorem base_add_le {N r r' : ℕ} (h : r < r') : base N r + N ^ height r ≤ base N r' := by
  induction r', h using Nat.le_induction with
  | base => rw [base_succ]
  | succ r' _ ih =>
    rw [base_succ]
    exact ih.trans (Nat.le_add_right _ _)

theorem base_nslots (N : ℕ) : base N NSLOTS = 12 + N + N ^ 2 + N ^ 3 := by
  show base N (14 + 1) = _
  rw [base_succ, base_triple, height_triple]

/-- The cases of a slot number. -/
theorem slot_cases {r : ℕ} (h : r < NSLOTS) : r < 12 ∨ r = 12 ∨ r = 13 ∨ r = 14 := by
  unfold NSLOTS NDADDR NIADDR at h
  omega

/-- A logical block is at offset `off` of slot `r` exactly when it is the `off`-th block from the
slot's first one and the slot's tree reaches it. -/
theorem locate_eq_some {N lbn r off : ℕ} :
    locate N lbn = some (r, off) ↔ r < NSLOTS ∧ off < N ^ height r ∧ lbn = base N r + off := by
  unfold locate NSLOTS NDADDR NIADDR
  constructor
  · intro h
    split_ifs at h with h₁ h₂ h₃ h₄ <;> simp only [Option.some.injEq, Prod.mk.injEq] at h <;>
      obtain ⟨rfl, rfl⟩ := h
    · simp only [height_direct h₁, base_direct h₁, pow_zero]
      omega
    · simp only [height_single, base_single, pow_one]
      omega
    · simp only [height_double, base_double]
      omega
    · simp only [height_triple, base_triple]
      omega
  · rintro ⟨hr, hoff, rfl⟩
    rcases slot_cases hr with hr' | rfl | rfl | rfl
    · simp only [height_direct hr', pow_zero, Nat.lt_one_iff] at hoff
      simp [hoff, hr']
    · simp only [height_single, pow_one, base_single] at hoff ⊢
      rw [if_neg (by omega), if_pos (by omega)]
      simp
    · simp only [height_double, base_double] at hoff ⊢
      rw [if_neg (by omega), if_neg (by omega), if_pos (by omega)]
      simp
    · simp only [height_triple, base_triple] at hoff ⊢
      rw [if_neg (by omega), if_neg (by omega), if_neg (by omega), if_pos (by omega)]
      simp

theorem locate_eq_none {N lbn : ℕ} : locate N lbn = none ↔ 12 + N + N ^ 2 + N ^ 3 ≤ lbn := by
  unfold locate NDADDR
  split_ifs <;> simp <;> omega

/-! ### What the pointers mean -/

variable (N : ℕ) (st : Store) (ip : Inode)

/-- The physical block of a logical block, `0` in a hole. -/
def blockMap (lbn : ℕ) : ℕ :=
  match locate N lbn with
  | some (r, off) => lookup N st (height r) (ip.slot r) off
  | none => 0

/-- The blocks the inode refers to, data blocks and indirect blocks. -/
def Owns (b : ℕ) : Prop := ∃ r < NSLOTS, Mem N st (height r) (ip.slot r) b

/-- The blocks the inode refers to for one of the first `c` logical blocks. -/
def KeptBy (c b : ℕ) : Prop :=
  ∃ r < NSLOTS, Kept N st (height r) (ip.slot r) (c - base N r) b

/-- The blocks the inode refers to, but for none of the first `c` logical blocks. -/
def CutBy (c b : ℕ) : Prop :=
  ∃ r < NSLOTS, Cut N st (height r) (ip.slot r) (c - base N r) b

/-- No block is referenced twice. -/
structure TreeShaped : Prop where
  sep : ∀ r < NSLOTS, Sep N st (height r) (ip.slot r)
  disjoint : ∀ r < NSLOTS, ∀ r' < NSLOTS, r ≠ r' → ∀ b, Mem N st (height r) (ip.slot r) b →
    ¬ Mem N st (height r') (ip.slot r') b

variable {N st ip}

theorem blockMap_of_locate {lbn r off : ℕ} (h : locate N lbn = some (r, off)) :
    blockMap N st ip lbn = lookup N st (height r) (ip.slot r) off := by
  rw [blockMap, h]

theorem blockMap_of_none {lbn : ℕ} (h : locate N lbn = none) : blockMap N st ip lbn = 0 := by
  rw [blockMap, h]

theorem blockMap_base {r off : ℕ} (hr : r < NSLOTS) (hoff : off < N ^ height r) :
    blockMap N st ip (base N r + off) = lookup N st (height r) (ip.slot r) off :=
  blockMap_of_locate (locate_eq_some.2 ⟨hr, hoff, rfl⟩)

/-- A mapped block is owned. -/
theorem blockMap_owns (hN : 0 < N) {lbn : ℕ} (h : blockMap N st ip lbn ≠ 0) :
    Owns N st ip (blockMap N st ip lbn) := by
  cases hl : locate N lbn with
  | none => exact absurd (blockMap_of_none hl) h
  | some ro =>
    obtain ⟨r, off⟩ := ro
    obtain ⟨hr, hoff, _⟩ := locate_eq_some.1 hl
    rw [blockMap_of_locate hl] at h ⊢
    exact ⟨r, hr, lookup_mem hN hoff h⟩

/-- No two logical blocks are mapped to the same block. -/
theorem blockMap_inj (hN : 0 < N) (hs : TreeShaped N st ip) {l l' : ℕ}
    (hne : blockMap N st ip l ≠ 0) (heq : blockMap N st ip l' = blockMap N st ip l) : l' = l := by
  have hlocated : ∀ {l : ℕ}, blockMap N st ip l ≠ 0 → ∃ r off, locate N l = some (r, off) := by
    intro l h
    cases hl : locate N l with
    | none => exact absurd (blockMap_of_none hl) h
    | some ro => exact ⟨ro.1, ro.2, rfl⟩
  obtain ⟨r, off, hl⟩ := hlocated hne
  obtain ⟨r', off', hl'⟩ := hlocated (heq ▸ hne)
  obtain ⟨hr, hoff, hlbn⟩ := locate_eq_some.1 hl
  obtain ⟨hr', hoff', hlbn'⟩ := locate_eq_some.1 hl'
  rw [blockMap_of_locate hl] at hne heq
  rw [blockMap_of_locate hl'] at heq
  have hslot : r' = r := by
    by_contra hdiff
    have hmem' := lookup_mem hN hoff' (heq ▸ hne)
    rw [heq] at hmem'
    exact hs.disjoint r hr r' hr' (Ne.symm hdiff) _ (lookup_mem hN hoff hne) hmem'
  subst hslot
  have := lookup_inj hN (hs.sep r' hr) hoff hoff' hne heq
  omega

theorem Inode.slot_direct {r : ℕ} (h : r < 12) : ip.slot r = ip.db r := by
  simp [Inode.slot, NDADDR, h]

theorem Inode.slot_indirect {r : ℕ} (h : 12 ≤ r) : ip.slot r = ip.ib (r - 12) := by
  simp [Inode.slot, NDADDR, show ¬ r < 12 by omega]

/-- Inodes with the same pointers have the same slots. -/
theorem Inode.slot_congr {ip' : Inode} (hdb : ip'.db = ip.db) (hib : ip'.ib = ip.ib) :
    ip'.slot = ip.slot := by
  funext r
  simp [Inode.slot, hdb, hib]

/-! ### Growing one slot -/

/-- Between two states of an inode only the logical block `lbn` may have become mapped, and only
`fresh` blocks were added, all of them for `lbn`. -/
structure MapGrows (N : ℕ) (st st' : Store) (ip ip' : Inode) (lbn : ℕ) (fresh : ℕ → Prop) :
    Prop where
  map_ne : ∀ l, l ≠ lbn → blockMap N st' ip' l = blockMap N st ip l
  owns_mono : ∀ b, Owns N st ip b → Owns N st' ip' b
  owns_fresh : ∀ b, Owns N st' ip' b → Owns N st ip b ∨ fresh b
  on_path : ∀ b, Owns N st' ip' b → ¬ Owns N st ip b → KeptBy N st' ip' (lbn + 1) b
  shaped : TreeShaped N st' ip'

/-- Growth below one slot is growth of the inode. -/
theorem MapGrows.of_slot {st' : Store} {ip' : Inode} {r off : ℕ} {fresh : ℕ → Prop} (hN : 0 < N)
    (hr : r < NSLOTS) (hs : TreeShaped N st ip)
    (hslot : ∀ r' < NSLOTS, r' ≠ r → ip'.slot r' = ip.slot r')
    (hbelow : ∀ r' < NSLOTS, r' ≠ r → ∀ b, Mem N st (height r') (ip.slot r') b → st' b = st b)
    (hfresh : ∀ b, fresh b → ¬ Owns N st ip b)
    (g : Grows N st st' (height r) (ip.slot r) (ip'.slot r) off fresh) :
    MapGrows N st st' ip ip' (base N r + off) fresh := by
  have hother : ∀ r' < NSLOTS, r' ≠ r → ∀ b, (Mem N st' (height r') (ip'.slot r') b ↔
      Mem N st (height r') (ip.slot r') b) := by
    intro r' hr' hne b
    rw [hslot r' hr' hne]
    exact mem_congr (hbelow r' hr' hne)
  have hdisj : ∀ r' < NSLOTS, r' ≠ r → ∀ b, Mem N st' (height r) (ip'.slot r) b →
      ¬ Mem N st (height r') (ip.slot r') b := by
    intro r' hr' hne b hb hb'
    rcases g.mem_fresh b hb with hb | hb
    · exact hs.disjoint r hr r' hr' (Ne.symm hne) b hb hb'
    · exact hfresh b hb ⟨r', hr', hb'⟩
  refine ⟨fun l hl => ?_, fun b hb => ?_, fun b hb => ?_, fun b hb hn => ?_, ?_, ?_⟩
  · cases hloc : locate N l with
    | none => rw [blockMap_of_none hloc, blockMap_of_none hloc]
    | some ro =>
      obtain ⟨r', o⟩ := ro
      obtain ⟨hr', ho, rfl⟩ := locate_eq_some.1 hloc
      rw [blockMap_of_locate hloc, blockMap_of_locate hloc]
      by_cases hrr : r' = r
      · subst hrr
        exact g.lookup_ne o ho fun h => hl (h ▸ rfl)
      · rw [hslot r' hr' hrr]
        exact lookup_congr hN ho (hbelow r' hr' hrr)
  · obtain ⟨r', hr', hb⟩ := hb
    by_cases hrr : r' = r
    · subst hrr
      exact ⟨r', hr', g.mem_mono b hb⟩
    · exact ⟨r', hr', (hother r' hr' hrr b).2 hb⟩
  · obtain ⟨r', hr', hb⟩ := hb
    by_cases hrr : r' = r
    · subst hrr
      exact (g.mem_fresh b hb).imp_left fun h => ⟨r', hr', h⟩
    · exact .inl ⟨r', hr', (hother r' hr' hrr b).1 hb⟩
  · obtain ⟨r', hr', hb⟩ := hb
    by_cases hrr : r' = r
    · subst hrr
      refine ⟨r', hr', ?_⟩
      rw [Nat.add_assoc, Nat.add_sub_cancel_left]
      exact g.on_path b hb fun h => hn ⟨r', hr', h⟩
    · exact absurd ⟨r', hr', (hother r' hr' hrr b).1 hb⟩ hn
  · intro r' hr'
    by_cases hrr : r' = r
    · exact hrr ▸ g.sep
    · rw [hslot r' hr' hrr]
      exact (sep_congr (hbelow r' hr' hrr)).2 (hs.sep r' hr')
  · intro r₁ hr₁ r₂ hr₂ hne b hb
    by_cases h1 : r₁ = r
    · subst h1
      rw [hother r₂ hr₂ (Ne.symm hne)]
      exact hdisj r₂ hr₂ (Ne.symm hne) b hb
    · rw [hother r₁ hr₁ h1] at hb
      by_cases h2 : r₂ = r
      · subst h2
        exact fun hb' => hdisj r₁ hr₁ h1 b hb' hb
      · rw [hother r₂ hr₂ h2]
        exact hs.disjoint r₁ hr₁ r₂ hr₂ hne b hb

/-- An inode whose pointers and pointer blocks were not touched. -/
theorem MapGrows.of_congr {st' : Store} {ip' : Inode} {lbn : ℕ} {fresh : ℕ → Prop} (hN : 0 < N)
    (hs : TreeShaped N st ip) (hdb : ip'.db = ip.db) (hib : ip'.ib = ip.ib)
    (hst : ∀ b, Owns N st ip b → st' b = st b) : MapGrows N st st' ip ip' lbn fresh := by
  have hslot : ip'.slot = ip.slot := Inode.slot_congr hdb hib
  have hmem : ∀ r < NSLOTS, ∀ b, Mem N st (height r) (ip.slot r) b → st' b = st b :=
    fun r hr b hb => hst b ⟨r, hr, hb⟩
  have howns : ∀ b, Owns N st' ip' b ↔ Owns N st ip b := by
    intro b
    simp only [Owns, hslot]
    exact exists_congr fun r => and_congr_right fun hr => mem_congr (hmem r hr)
  refine ⟨fun l _ => ?_, fun b hb => (howns b).2 hb, fun b hb => .inl ((howns b).1 hb),
    fun b hb hn => absurd ((howns b).1 hb) hn, ?_, ?_⟩
  · cases hloc : locate N l with
    | none => rw [blockMap_of_none hloc, blockMap_of_none hloc]
    | some ro =>
      obtain ⟨r, o⟩ := ro
      obtain ⟨hr, ho, _⟩ := locate_eq_some.1 hloc
      rw [blockMap_of_locate hloc, blockMap_of_locate hloc, hslot]
      exact lookup_congr hN ho (hmem r hr)
  · intro r hr
    rw [hslot]
    exact (sep_congr (hmem r hr)).2 (hs.sep r hr)
  · intro r hr r' hr' hne b
    rw [hslot, mem_congr (hmem r hr), mem_congr (hmem r' hr')]
    exact hs.disjoint r hr r' hr' hne b

/-! ### Cutting the slots -/

/-- The blocks that are lost are those that serve no kept block. -/
theorem cutBy_iff {c b : ℕ} (hs : TreeShaped N st ip) :
    CutBy N st ip c b ↔ Owns N st ip b ∧ ¬ KeptBy N st ip c b := by
  constructor
  · rintro ⟨r, hr, hb⟩
    refine ⟨⟨r, hr, hb.mem⟩, ?_⟩
    rintro ⟨r', hr', hk⟩
    by_cases heq : r = r'
    · subst heq
      exact hb.not_kept (hs.sep r hr) hk
    · exact hs.disjoint r hr r' hr' heq b hb.mem hk.mem
  · rintro ⟨⟨r, hr, hb⟩, hk⟩
    refine ⟨r, hr, (mem_iff_cut_or_kept.1 hb).resolve_right fun h => hk ⟨r, hr, h⟩⟩

/-- Between two states the inode was cut after its first `c` logical blocks. -/
structure MapTrims (N : ℕ) (st st' : Store) (ip ip' : Inode) (c : ℕ) : Prop where
  map_eq : ∀ l, blockMap N st' ip' l = if l < c then blockMap N st ip l else 0
  owns_iff : ∀ b, Owns N st' ip' b ↔ KeptBy N st ip c b
  shaped : TreeShaped N st' ip'

/-- Slots behind the cut are cleared, and the others are trimmed. -/
theorem MapTrims.of_slots {st' : Store} {ip' : Inode} {c : ℕ} (hs : TreeShaped N st ip)
    (hslots : ∀ r < NSLOTS, ip'.slot r = if c - base N r = 0 then 0 else ip.slot r)
    (htrims : ∀ r < NSLOTS, 0 < c - base N r →
      Trims N st st' (height r) (ip.slot r) (c - base N r)) : MapTrims N st st' ip ip' c := by
  have hmem : ∀ r < NSLOTS, ∀ b, Mem N st' (height r) (ip'.slot r) b ↔
      Kept N st (height r) (ip.slot r) (c - base N r) b := by
    intro r hr b
    rw [hslots r hr]
    split
    · next h => simp [h]
    · next h => exact (htrims r hr (by omega)).mem_iff b
  refine ⟨fun l => ?_, fun b => ?_, fun r hr => ?_, fun r hr r' hr' hne b hb hb' => ?_⟩
  · cases hl : locate N l with
    | none => simp [blockMap_of_none hl]
    | some ro =>
      obtain ⟨r, off⟩ := ro
      obtain ⟨hr, hoff, hlbn⟩ := locate_eq_some.1 hl
      rw [blockMap_of_locate hl, blockMap_of_locate hl, hslots r hr]
      split
      · next h =>
        rw [lookup_null, if_neg]
        omega
      · next h =>
        rw [(htrims r hr (by omega)).lookup_eq off hoff]
        exact if_congr (by omega) rfl rfl
  · exact exists_congr fun r => and_congr_right fun hr => hmem r hr b
  · rw [hslots r hr]
    split
    · exact sep_null
    · next h => exact (htrims r hr (by omega)).sep
  · exact hs.disjoint r hr r' hr' hne b ((hmem r hr b).1 hb).mem ((hmem r' hr' b).1 hb').mem

end Ext2fs
