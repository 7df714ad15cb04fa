import Mathlib

/-!
# Pointer trees in a block store

A store maps a block number to the pointers the block holds.  A pointer tree of height `k` rooted at
a pointer `p` is a single block when `k = 0`, and otherwise a block of `N` pointers, each the root of
a tree of height `k - 1`.  The null pointer `0` is an empty tree of any height.

* `lookup` — the block found at an offset, `0` in a hole;
* `Mem` — the blocks of a tree, pointer blocks and data blocks alike;
* `Sep` — no block is referenced twice, so the pointers really form a tree;
* `Cut` and `Kept` — the blocks that serve only offsets from `c` on, and the others;
* `Grows` — what adding blocks at one offset does, level by level (`Grows.node`);
* `Trims` — what cutting the tree at an offset does, level by level (`Trims.node`).

Two facts carry every proof about a program that edits such a tree: a tree only depends on the store
at its own blocks (`lookup_congr`, `mem_congr`, `sep_congr`), and an edit below one child leaves the
other children alone (`EditsChild`).
-/

namespace PtrTree

/-- The pointers held by each block. -/
abbrev Store := ℕ → ℕ → ℕ

section Tree

variable (N : ℕ)

/-- The block at offset `off` of the tree of height `k` rooted at `p`. -/
def lookup (st : Store) : ℕ → ℕ → ℕ → ℕ
  | 0, p, _ => p
  | k + 1, p, off => if p = 0 then 0 else lookup st k (st p (off / N ^ k)) (off % N ^ k)

/-- The blocks of the tree of height `k` rooted at `p`. -/
def Mem (st : Store) : ℕ → ℕ → ℕ → Prop
  | 0, p, b => p ≠ 0 ∧ b = p
  | k + 1, p, b => p ≠ 0 ∧ (b = p ∨ ∃ i < N, Mem st k (st p i) b)

/-- No block of the tree is referenced twice. -/
def Sep (st : Store) : ℕ → ℕ → Prop
  | 0, _ => True
  | k + 1, p => p ≠ 0 →
      (∀ i < N, ¬ Mem N st k (st p i) p) ∧
      (∀ i < N, Sep st k (st p i)) ∧
      ∀ i < N, ∀ j < N, i ≠ j → ∀ b, Mem N st k (st p i) b → ¬ Mem N st k (st p j) b

/-- The blocks of the tree that serve no offset below `c`. -/
def Cut (st : Store) : ℕ → ℕ → ℕ → ℕ → Prop
  | 0, p, c, b => p ≠ 0 ∧ c = 0 ∧ b = p
  | k + 1, p, c, b => p ≠ 0 ∧ (c = 0 ∧ b = p ∨ ∃ i < N, Cut st k (st p i) (c - i * N ^ k) b)

/-- The blocks of the tree that serve an offset below `c`. -/
def Kept (st : Store) : ℕ → ℕ → ℕ → ℕ → Prop
  | 0, p, c, b => p ≠ 0 ∧ 0 < c ∧ b = p
  | k + 1, p, c, b => p ≠ 0 ∧ 0 < c ∧ (b = p ∨ ∃ i < N, Kept st k (st p i) (c - i * N ^ k) b)

variable {N} {st st' : Store} {k p q b c off : ℕ}

@[simp] theorem lookup_null : lookup N st k 0 off = 0 := by
  cases k <;> simp [lookup]

@[simp] theorem not_mem_null : ¬ Mem N st k 0 b := by
  cases k <;> simp [Mem]

@[simp] theorem not_cut_null : ¬ Cut N st k 0 c b := by
  cases k <;> simp [Cut]

@[simp] theorem not_kept_null : ¬ Kept N st k 0 c b := by
  cases k <;> simp [Kept]

@[simp] theorem not_kept_zero : ¬ Kept N st k p 0 b := by
  cases k <;> simp [Kept]

@[simp] theorem sep_null : Sep N st k 0 := by
  cases k <;> simp [Sep]

theorem mem_root (hp : p ≠ 0) : Mem N st k p p := by
  cases k <;> simp [Mem, hp]

theorem ne_root_of_not_mem (hp : p ≠ 0) (h : ¬ Mem N st k p b) : b ≠ p := by
  rintro rfl
  exact h (mem_root hp)

theorem Mem.ne_zero (h : Mem N st k p b) : b ≠ 0 := by
  induction k generalizing p with
  | zero => exact h.2 ▸ h.1
  | succ k ih =>
    obtain ⟨hp, rfl | ⟨i, _, hi⟩⟩ := h
    · exact hp
    · exact ih hi

theorem Mem.root_ne_zero (h : Mem N st k p b) : p ≠ 0 := by
  rintro rfl
  exact not_mem_null h

theorem mem_of_child {i : ℕ} (hp : p ≠ 0) (hi : i < N) (h : Mem N st k (st p i) b) :
    Mem N st (k + 1) p b :=
  ⟨hp, .inr ⟨i, hi, h⟩⟩

theorem Sep.root_not_mem {i : ℕ} (h : Sep N st (k + 1) p) (hp : p ≠ 0) (hi : i < N) :
    ¬ Mem N st k (st p i) p :=
  (h hp).1 i hi

theorem Sep.child {i : ℕ} (h : Sep N st (k + 1) p) (hp : p ≠ 0) (hi : i < N) :
    Sep N st k (st p i) :=
  (h hp).2.1 i hi

theorem Sep.disjoint {i j : ℕ} (h : Sep N st (k + 1) p) (hp : p ≠ 0) (hi : i < N) (hj : j < N)
    (hij : i ≠ j) (hb : Mem N st k (st p i) b) : ¬ Mem N st k (st p j) b :=
  (h hp).2.2 i hi j hj hij b hb

/-- The index of a child inside the tree. -/
theorem div_lt_of_lt_pow (hN : 0 < N) (h : off < N ^ (k + 1)) : off / N ^ k < N := by
  rw [Nat.div_lt_iff_lt_mul (pow_pos hN k), mul_comm, ← pow_succ]
  exact h

/-- What the tree has at an offset below child `c` of its root. -/
theorem lookup_add (hp : p ≠ 0) (ho : off < N ^ k) :
    lookup N st (k + 1) p (c * N ^ k + off) = lookup N st k (st p c) off := by
  have hpos : 0 < N ^ k := by omega
  rw [lookup, if_neg hp, Nat.add_comm, Nat.add_mul_div_right _ _ hpos, Nat.div_eq_of_lt ho,
    Nat.zero_add, Nat.add_mul_mod_self_right, Nat.mod_eq_of_lt ho]

/-- A block that is found belongs to the tree. -/
theorem lookup_mem (hN : 0 < N) (hoff : off < N ^ k) (h : lookup N st k p off ≠ 0) :
    Mem N st k p (lookup N st k p off) := by
  induction k generalizing p off with
  | zero => exact ⟨h, rfl⟩
  | succ k ih =>
    rw [lookup] at h ⊢
    by_cases hp : p = 0
    · simp [hp] at h
    · rw [if_neg hp] at h ⊢
      exact mem_of_child hp (div_lt_of_lt_pow hN hoff) (ih (Nat.mod_lt _ (pow_pos hN k)) h)

/-- In a tree without sharing no two offsets have the same block. -/
theorem lookup_inj {off' : ℕ} (hN : 0 < N) (hs : Sep N st k p) (hoff : off < N ^ k)
    (hoff' : off' < N ^ k) (hne : lookup N st k p off ≠ 0)
    (heq : lookup N st k p off' = lookup N st k p off) : off' = off := by
  induction k generalizing p off off' with
  | zero =>
    rw [pow_zero] at hoff hoff'
    omega
  | succ k ih =>
    have hp : p ≠ 0 := by
      rintro rfl
      exact hne (by simp [lookup])
    have hd := div_lt_of_lt_pow hN hoff
    have hd' := div_lt_of_lt_pow hN hoff'
    have hm : off % N ^ k < N ^ k := Nat.mod_lt _ (pow_pos hN k)
    have hm' : off' % N ^ k < N ^ k := Nat.mod_lt _ (pow_pos hN k)
    rw [lookup, if_neg hp] at hne
    rw [lookup, if_neg hp, lookup, if_neg hp] at heq
    have hchild : off' / N ^ k = off / N ^ k := by
      by_contra hdiff
      have hmem' := lookup_mem hN hm' (heq ▸ hne)
      rw [heq] at hmem'
      exact hs.disjoint hp hd hd' (Ne.symm hdiff) (lookup_mem hN hm hne) hmem'
    rw [hchild] at heq
    have hmod := ih (hs.child hp hd) hm hm' hne heq
    rw [← Nat.div_add_mod off' (N ^ k), ← Nat.div_add_mod off (N ^ k), hchild, hmod]

/-! ### A tree depends on the store at its own blocks only -/

theorem mem_congr (h : ∀ b, Mem N st k p b → st' b = st b) :
    Mem N st' k p b ↔ Mem N st k p b := by
  induction k generalizing p with
  | zero => rfl
  | succ k ih =>
    by_cases hp : p = 0
    · simp [hp]
    · have hroot : st' p = st p := h p (mem_root hp)
      simp only [Mem, hroot]
      have hch : ∀ i < N, (Mem N st' k (st p i) b ↔ Mem N st k (st p i) b) := fun i hi =>
        ih fun b hb => h b (mem_of_child hp hi hb)
      constructor
      · rintro ⟨_, hb | ⟨i, hi, hb⟩⟩
        · exact ⟨hp, .inl hb⟩
        · exact ⟨hp, .inr ⟨i, hi, (hch i hi).1 hb⟩⟩
      · rintro ⟨_, hb | ⟨i, hi, hb⟩⟩
        · exact ⟨hp, .inl hb⟩
        · exact ⟨hp, .inr ⟨i, hi, (hch i hi).2 hb⟩⟩

theorem lookup_congr (hN : 0 < N) (hoff : off < N ^ k) (h : ∀ b, Mem N st k p b → st' b = st b) :
    lookup N st' k p off = lookup N st k p off := by
  induction k generalizing p off with
  | zero => rfl
  | succ k ih =>
    by_cases hp : p = 0
    · simp [hp]
    · rw [lookup, lookup, if_neg hp, if_neg hp, h p (mem_root hp)]
      exact ih (Nat.mod_lt _ (pow_pos hN k)) fun b hb =>
        h b (mem_of_child hp (div_lt_of_lt_pow hN hoff) hb)

theorem sep_congr (h : ∀ b, Mem N st k p b → st' b = st b) : Sep N st' k p ↔ Sep N st k p := by
  induction k generalizing p with
  | zero => rfl
  | succ k ih =>
    by_cases hp : p = 0
    · simp [hp]
    · have hroot : st' p = st p := h p (mem_root hp)
      have hch : ∀ i < N, ∀ b, Mem N st k (st p i) b → st' b = st b := fun i hi b hb =>
        h b (mem_of_child hp hi hb)
      have hmem : ∀ i < N, ∀ b, (Mem N st' k (st p i) b ↔ Mem N st k (st p i) b) :=
        fun i hi b => mem_congr (hch i hi)
      simp only [Sep, hroot]
      refine imp_congr_right fun _ => and_congr ?_ (and_congr ?_ ?_)
      · exact forall₂_congr fun i hi => not_congr (hmem i hi p)
      · exact forall₂_congr fun i hi => ih (hch i hi)
      · refine forall₂_congr fun i hi => forall₂_congr fun j hj => imp_congr_right fun _ =>
          forall_congr' fun b => ?_
        rw [hmem i hi, hmem j hj]

/-! ### An edit below one child -/

/-- `st'` agrees with `st` on the node `p` except in slot `d`, and below every other child. -/
structure EditsChild (N : ℕ) (st st' : Store) (k p d : ℕ) : Prop where
  slots : ∀ j, j ≠ d → st' p j = st p j
  below : ∀ j < N, j ≠ d → ∀ b, Mem N st k (st p j) b → st' b = st b

namespace EditsChild

variable {d : ℕ} (e : EditsChild N st st' k p d)

include e

theorem lookup_child (hN : 0 < N) (hp : p ≠ 0) (hoff : off < N ^ (k + 1)) :
    lookup N st' (k + 1) p off =
      if off / N ^ k = d then lookup N st' k (st' p d) (off % N ^ k)
      else lookup N st (k + 1) p off := by
  rw [lookup, if_neg hp]
  split
  · next hd => rw [hd]
  · next hd =>
    rw [lookup, if_neg hp, e.slots _ hd]
    exact lookup_congr hN (Nat.mod_lt _ (pow_pos hN k)) (e.below _ (div_lt_of_lt_pow hN hoff) hd)

theorem mem_child (hp : p ≠ 0) (hd : d < N) :
    Mem N st' (k + 1) p b ↔
      b = p ∨ Mem N st' k (st' p d) b ∨ ∃ j < N, j ≠ d ∧ Mem N st k (st p j) b := by
  have hch : ∀ j < N, j ≠ d → (Mem N st' k (st' p j) b ↔ Mem N st k (st p j) b) := by
    intro j hj hjd
    rw [e.slots j hjd]
    exact mem_congr (e.below j hj hjd)
  constructor
  · rintro ⟨_, rfl | ⟨j, hj, hb⟩⟩
    · exact .inl rfl
    · by_cases hjd : j = d
      · exact .inr (.inl (hjd ▸ hb))
      · exact .inr (.inr ⟨j, hj, hjd, (hch j hj hjd).1 hb⟩)
  · rintro (rfl | hb | ⟨j, hj, hjd, hb⟩)
    · exact mem_root hp
    · exact mem_of_child hp hd hb
    · exact mem_of_child hp hj ((hch j hj hjd).2 hb)

theorem sep_child (hp : p ≠ 0) (hs : Sep N st (k + 1) p)
    (hd : Sep N st' k (st' p d))
    (hroot : ¬ Mem N st' k (st' p d) p)
    (hdisj : ∀ b, Mem N st' k (st' p d) b → ∀ j < N, j ≠ d → ¬ Mem N st k (st p j) b) :
    Sep N st' (k + 1) p := by
  have hch : ∀ j < N, j ≠ d → ∀ b, (Mem N st' k (st' p j) b ↔ Mem N st k (st p j) b) := by
    intro j hj hjd b
    rw [e.slots j hjd]
    exact mem_congr (e.below j hj hjd)
  refine fun _ => ⟨fun i hi => ?_, fun i hi => ?_, fun i hi j hj hij b hb => ?_⟩
  · by_cases hid : i = d
    · exact hid ▸ hroot
    · rw [hch i hi hid]
      exact hs.root_not_mem hp hi
  · by_cases hid : i = d
    · exact hid ▸ hd
    · rw [e.slots i hid]
      exact (sep_congr (e.below i hi hid)).2 (hs.child hp hi)
  · by_cases hid : i = d
    · subst hid
      rw [hch j hj (Ne.symm hij)]
      exact hdisj b hb j hj (Ne.symm hij)
    · rw [hch i hi hid] at hb
      by_cases hjd : j = d
      · subst hjd
        exact fun hb' => hdisj b hb' i hi hid hb
      · rw [hch j hj hjd]
        exact hs.disjoint hp hi hj hij hb

end EditsChild

/-! ### Cutting a tree at an offset -/

theorem Cut.mem (h : Cut N st k p c b) : Mem N st k p b := by
  induction k generalizing p c with
  | zero => exact ⟨h.1, h.2.2⟩
  | succ k ih =>
    obtain ⟨hp, ⟨_, rfl⟩ | ⟨i, hi, hb⟩⟩ := h
    · exact mem_root hp
    · exact mem_of_child hp hi (ih hb)

theorem Kept.mem (h : Kept N st k p c b) : Mem N st k p b := by
  induction k generalizing p c with
  | zero => exact ⟨h.1, h.2.2⟩
  | succ k ih =>
    obtain ⟨hp, _, rfl | ⟨i, hi, hb⟩⟩ := h
    · exact mem_root hp
    · exact mem_of_child hp hi (ih hb)

theorem Kept.mono {c' : ℕ} (h : Kept N st k p c b) (hc : c ≤ c') : Kept N st k p c' b := by
  induction k generalizing p c c' with
  | zero => exact ⟨h.1, lt_of_lt_of_le h.2.1 hc, h.2.2⟩
  | succ k ih =>
    obtain ⟨hp, hpos, rfl | ⟨i, hi, hb⟩⟩ := h
    · exact ⟨hp, lt_of_lt_of_le hpos hc, .inl rfl⟩
    · exact ⟨hp, lt_of_lt_of_le hpos hc, .inr ⟨i, hi, ih hb (Nat.sub_le_sub_right hc _)⟩⟩

theorem cut_zero : Cut N st k p 0 b ↔ Mem N st k p b := by
  induction k generalizing p with
  | zero => simp [Cut, Mem]
  | succ k ih => simp [Cut, Mem, ih]

/-- Every block of the tree is cut or kept. -/
theorem mem_iff_cut_or_kept : Mem N st k p b ↔ Cut N st k p c b ∨ Kept N st k p c b := by
  constructor
  · intro h
    induction k generalizing p c with
    | zero =>
      rcases Nat.eq_zero_or_pos c with rfl | hc
      · exact .inl ⟨h.1, rfl, h.2⟩
      · exact .inr ⟨h.1, hc, h.2⟩
    | succ k ih =>
      rcases Nat.eq_zero_or_pos c with rfl | hc
      · exact .inl (cut_zero.2 h)
      · obtain ⟨hp, rfl | ⟨i, hi, hb⟩⟩ := h
        · exact .inr ⟨hp, hc, .inl rfl⟩
        · rcases ih (c := c - i * N ^ k) hb with hb | hb
          · exact .inl ⟨hp, .inr ⟨i, hi, hb⟩⟩
          · exact .inr ⟨hp, hc, .inr ⟨i, hi, hb⟩⟩
  · rintro (h | h)
    · exact h.mem
    · exact h.mem

/-- In a tree no block is both cut and kept. -/
theorem Cut.not_kept (hs : Sep N st k p) (h : Cut N st k p c b) : ¬ Kept N st k p c b := by
  induction k generalizing p c with
  | zero =>
    intro hk
    exact absurd h.2.1 hk.2.1.ne'
  | succ k ih =>
    rintro ⟨hp, hc, hk⟩
    obtain ⟨_, ⟨rfl, _⟩ | ⟨i, hi, hb⟩⟩ := h
    · exact absurd hc (lt_irrefl 0)
    · rcases hk with rfl | ⟨j, hj, hk⟩
      · exact hs.root_not_mem hp hi hb.mem
      · by_cases hij : i = j
        · subst hij
          exact ih (hs.child hp hi) hb hk
        · exact hs.disjoint hp hi hj hij hb.mem hk.mem

/-! ### Growing a tree at one offset -/

/-- Between `st` and `st'` the tree of height `k` rooted at `p` turned into the one rooted at `p'`,
in which only the offset `off` may lead somewhere new and only `fresh` blocks were added, all of them
on the way to that offset. -/
structure Grows (N : ℕ) (st st' : Store) (k p p' off : ℕ) (fresh : ℕ → Prop) : Prop where
  lookup_ne : ∀ o < N ^ k, o ≠ off → lookup N st' k p' o = lookup N st k p o
  mem_mono : ∀ b, Mem N st k p b → Mem N st' k p' b
  mem_fresh : ∀ b, Mem N st' k p' b → Mem N st k p b ∨ fresh b
  on_path : ∀ b, Mem N st' k p' b → ¬ Mem N st k p b → Kept N st' k p' (off + 1) b
  sep : Sep N st' k p'

/-- A tree whose blocks were not touched. -/
theorem Grows.of_congr {fresh : ℕ → Prop} (hN : 0 < N) (hs : Sep N st k p)
    (h : ∀ b, Mem N st k p b → st' b = st b) : Grows N st st' k p p off fresh where
  lookup_ne _ ho _ := lookup_congr hN ho h
  mem_mono _ hb := (mem_congr h).2 hb
  mem_fresh _ hb := .inl ((mem_congr h).1 hb)
  on_path _ hb hn := absurd ((mem_congr h).1 hb) hn
  sep := (sep_congr h).2 hs

/-- Growth below one child is growth of the node. -/
theorem Grows.node {d o : ℕ} {fresh : ℕ → Prop} (e : EditsChild N st st' k p d) (hN : 0 < N)
    (hp : p ≠ 0) (hd : d < N) (ho : o < N ^ k) (hs : Sep N st (k + 1) p)
    (hfresh : ∀ b, fresh b → ¬ Mem N st (k + 1) p b)
    (g : Grows N st st' k (st p d) (st' p d) o fresh) :
    Grows N st st' (k + 1) p p (d * N ^ k + o) fresh where
  lookup_ne off hoff hne := by
    rw [e.lookup_child hN hp hoff]
    split
    · next hdiv =>
      have hmod : off % N ^ k ≠ o := by
        rintro rfl
        rw [← hdiv] at hne
        exact hne (Nat.div_add_mod' off (N ^ k)).symm
      rw [g.lookup_ne _ (Nat.mod_lt _ (pow_pos hN k)) hmod, lookup, if_neg hp, hdiv]
    · rfl
  mem_mono b hb := by
    rw [e.mem_child hp hd]
    obtain ⟨_, rfl | ⟨j, hj, hb⟩⟩ := hb
    · exact .inl rfl
    · by_cases hjd : j = d
      · exact .inr (.inl (g.mem_mono b (hjd ▸ hb)))
      · exact .inr (.inr ⟨j, hj, hjd, hb⟩)
  mem_fresh b hb := by
    rw [e.mem_child hp hd] at hb
    rcases hb with rfl | hb | ⟨j, hj, _, hb⟩
    · exact .inl (mem_root hp)
    · exact (g.mem_fresh b hb).imp (mem_of_child hp hd) id
    · exact .inl (mem_of_child hp hj hb)
  on_path b hb hn := by
    rw [e.mem_child hp hd] at hb
    rcases hb with rfl | hb | ⟨j, hj, _, hb⟩
    · exact absurd (mem_root hp) hn
    · have hk := g.on_path b hb fun h => hn (mem_of_child hp hd h)
      refine ⟨hp, Nat.succ_pos _, .inr ⟨d, hd, ?_⟩⟩
      rwa [Nat.add_assoc, Nat.add_sub_cancel_left]
    · exact absurd (mem_of_child hp hj hb) hn
  sep := by
    refine e.sep_child hp hs g.sep ?_ ?_
    · intro hb
      rcases g.mem_fresh p hb with hb | hb
      · exact hs.root_not_mem hp hd hb
      · exact hfresh p hb (mem_root hp)
    · intro b hb j hj hjd hb'
      rcases g.mem_fresh b hb with hb | hb
      · exact hs.disjoint hp hd hj (Ne.symm hjd) hb hb'
      · exact hfresh b hb (mem_of_child hp hj hb')

/-- A block without pointers is a tree of holes. -/
theorem lookup_blank (hz : ∀ i, st q i = 0) : lookup N st (k + 1) q off = 0 := by
  rw [lookup, hz, lookup_null, ite_self]

theorem mem_blank (hq : q ≠ 0) (hz : ∀ i, st q i = 0) : Mem N st (k + 1) q b ↔ b = q := by
  simp [Mem, hq, hz]

theorem sep_blank (hz : ∀ i, st q i = 0) : Sep N st (k + 1) q := by
  simp [Sep, hz]

/-- Growth of a blank block is growth of the empty tree. -/
theorem Grows.of_blank {st₁ : Store} {fresh : ℕ → Prop} (hq : q ≠ 0) (hz : ∀ i, st₁ q i = 0)
    (g : Grows N st₁ st' (k + 1) q q off fresh) :
    Grows N st st' (k + 1) 0 q off (fun b => b = q ∨ fresh b) where
  lookup_ne o ho hne := by
    rw [g.lookup_ne o ho hne, lookup_blank hz, lookup_null]
  mem_mono b hb := absurd hb not_mem_null
  mem_fresh b hb := by
    refine .inr ((g.mem_fresh b hb).imp_left fun h => ?_)
    exact (mem_blank hq hz).1 h
  on_path b hb _ := by
    by_cases hbq : b = q
    · exact ⟨hq, Nat.succ_pos _, .inl hbq⟩
    · exact g.on_path b hb fun h => hbq ((mem_blank hq hz).1 h)
  sep := g.sep

theorem Grows.mono {p' : ℕ} {fresh fresh' : ℕ → Prop} (g : Grows N st st' k p p' off fresh)
    (h : ∀ b, fresh b → fresh' b) : Grows N st st' k p p' off fresh' :=
  { g with mem_fresh := fun b hb => (g.mem_fresh b hb).imp_right (h b) }

/-! ### The children of a node that is cut -/

/-- A child in front of the one that holds offset `c - 1` lies below the cut. -/
theorem le_sub_of_lt_div {i : ℕ} (hi : i < (c - 1) / N ^ k) : N ^ k ≤ c - i * N ^ k := by
  have h1 : (i + 1) * N ^ k ≤ (c - 1) / N ^ k * N ^ k := Nat.mul_le_mul_right _ hi
  have h2 : (c - 1) / N ^ k * N ^ k ≤ c - 1 := Nat.div_mul_le_self _ _
  rw [Nat.add_mul, one_mul] at h1
  omega

/-- A child behind the one that holds offset `c - 1` lies above the cut. -/
theorem sub_eq_zero_of_div_lt {i : ℕ} (hN : 0 < N) (hi : (c - 1) / N ^ k < i) :
    c - i * N ^ k = 0 := by
  have h1 : c - 1 < ((c - 1) / N ^ k + 1) * N ^ k := by
    rw [← Nat.div_lt_iff_lt_mul (pow_pos hN k)]
    exact Nat.lt_succ_self _
  have h2 : ((c - 1) / N ^ k + 1) * N ^ k ≤ i * N ^ k := Nat.mul_le_mul_right _ hi
  omega

theorem last_lt (hN : 0 < N) (hc : 0 < c) (hcN : c ≤ N ^ (k + 1)) : (c - 1) / N ^ k < N :=
  div_lt_of_lt_pow hN (by omega)

/-- The child that holds offset `c - 1` is cut inside, or at its end. -/
theorem sub_last_pos (hc : 0 < c) : 0 < c - (c - 1) / N ^ k * N ^ k := by
  have h := Nat.div_mul_le_self (c - 1) (N ^ k)
  omega

theorem sub_last_le (hN : 0 < N) : c - (c - 1) / N ^ k * N ^ k ≤ N ^ k := by
  have h1 := Nat.div_add_mod' (c - 1) (N ^ k)
  have h2 := Nat.mod_lt (c - 1) (pow_pos hN k)
  omega

/-- A child entirely below the cut keeps all its blocks. -/
theorem kept_of_le (hc : N ^ k ≤ c) (hN : 0 < N) : Kept N st k p c b ↔ Mem N st k p b := by
  induction k generalizing p c with
  | zero =>
    have : 0 < c := lt_of_lt_of_le (pow_pos hN 0) hc
    simp [Kept, Mem, this]
  | succ k ih =>
    have hpos : 0 < c := lt_of_lt_of_le (pow_pos hN _) hc
    have hchild : ∀ i < N, N ^ k ≤ c - i * N ^ k := by
      intro i hi
      have h1 : (i + 1) * N ^ k ≤ N ^ (k + 1) := by
        rw [pow_succ, mul_comm (N ^ k)]
        exact Nat.mul_le_mul_right _ hi
      rw [Nat.add_mul, one_mul] at h1
      omega
    constructor
    · exact Kept.mem
    · rintro ⟨hp, rfl | ⟨i, hi, hb⟩⟩
      · exact ⟨hp, hpos, .inl rfl⟩
      · exact ⟨hp, hpos, .inr ⟨i, hi, (ih (hchild i hi)).2 hb⟩⟩

/-- A tree entirely below the cut loses none. -/
theorem not_cut_of_le (hc : N ^ k ≤ c) (hN : 0 < N) : ¬ Cut N st k p c b := by
  induction k generalizing p c with
  | zero =>
    rintro ⟨_, h, _⟩
    have := pow_pos hN 0
    omega
  | succ k ih =>
    have hpos : 0 < c := lt_of_lt_of_le (pow_pos hN _) hc
    rintro ⟨_, ⟨h, _⟩ | ⟨i, hi, hb⟩⟩
    · omega
    · refine ih ?_ hb
      have h1 : (i + 1) * N ^ k ≤ N ^ (k + 1) := by
        rw [pow_succ, mul_comm (N ^ k)]
        exact Nat.mul_le_mul_right _ hi
      rw [Nat.add_mul, one_mul] at h1
      omega

/-- A root that is kept is not lost. -/
theorem Cut.ne_root (hs : Sep N st k p) (hc : 0 < c) (h : Cut N st k p c b) : b ≠ p := by
  cases k with
  | zero =>
    have := h.2.1
    omega
  | succ k =>
    obtain ⟨hp, ⟨h, _⟩ | ⟨i, hi, hb⟩⟩ := h
    · omega
    · rintro rfl
      exact hs.root_not_mem hp hi hb.mem

/-- What a node loses: the children behind the last kept one, and what that one loses. -/
theorem cut_node (hN : 0 < N) (hp : p ≠ 0) (hc : 0 < c) (hcN : c ≤ N ^ (k + 1)) :
    Cut N st (k + 1) p c b ↔ (∃ i < N, (c - 1) / N ^ k < i ∧ Mem N st k (st p i) b) ∨
      Cut N st k (st p ((c - 1) / N ^ k)) (c - (c - 1) / N ^ k * N ^ k) b := by
  constructor
  · rintro ⟨_, ⟨h, _⟩ | ⟨i, hi, hb⟩⟩
    · omega
    · rcases lt_trichotomy i ((c - 1) / N ^ k) with h | rfl | h
      · exact absurd hb (not_cut_of_le (le_sub_of_lt_div h) hN)
      · exact .inr hb
      · exact .inl ⟨i, hi, h, hb.mem⟩
  · rintro (⟨i, hi, h, hb⟩ | hb)
    · refine ⟨hp, .inr ⟨i, hi, ?_⟩⟩
      rw [sub_eq_zero_of_div_lt hN h]
      exact cut_zero.2 hb
    · exact ⟨hp, .inr ⟨_, last_lt hN hc hcN, hb⟩⟩

/-! ### Trimming a tree -/

/-- Between `st` and `st'` the tree of height `k` rooted at `p` was cut at the offset `c`. -/
structure Trims (N : ℕ) (st st' : Store) (k p c : ℕ) : Prop where
  lookup_eq : ∀ off < N ^ k, lookup N st' k p off = if off < c then lookup N st k p off else 0
  mem_iff : ∀ b, Mem N st' k p b ↔ Kept N st k p c b
  sep : Sep N st' k p

theorem Trims.null : Trims N st st' k 0 c where
  lookup_eq _ _ := by simp
  mem_iff _ := by simp
  sep := sep_null

/-- A single block that is kept. -/
theorem Trims.leaf (hc : 0 < c) : Trims N st st' 0 p c where
  lookup_eq off hoff := by
    rw [pow_zero, Nat.lt_one_iff] at hoff
    rw [hoff, if_pos hc]
    rfl
  mem_iff b := by simp [Mem, Kept, hc]
  sep := trivial

/-- A tree entirely below the cut that was not touched. -/
theorem Trims.full (hN : 0 < N) (hc : N ^ k ≤ c) (hs : Sep N st k p)
    (h : ∀ b, Mem N st k p b → st' b = st b) : Trims N st st' k p c where
  lookup_eq off hoff := by
    rw [if_pos (by omega)]
    exact lookup_congr hN hoff h
  mem_iff b := by rw [mem_congr h, kept_of_le hc hN]
  sep := (sep_congr h).2 hs

/-- A block found at an offset from `c` on is cut. -/
theorem lookup_cut (hN : 0 < N) (hoff : off < N ^ k) (hc : c ≤ off) (h : lookup N st k p off ≠ 0) :
    Cut N st k p c (lookup N st k p off) := by
  induction k generalizing p off c with
  | zero =>
    rw [pow_zero, Nat.lt_one_iff] at hoff
    exact ⟨h, by omega, rfl⟩
  | succ k ih =>
    have hp : p ≠ 0 := by
      rintro rfl
      exact h lookup_null
    rw [lookup, if_neg hp] at h ⊢
    have hle : c - off / N ^ k * N ^ k ≤ off % N ^ k := by
      rwa [Nat.sub_le_iff_le_add, Nat.add_comm, Nat.div_add_mod']
    exact ⟨hp, .inr ⟨off / N ^ k, div_lt_of_lt_pow hN hoff,
      ih (Nat.mod_lt _ (pow_pos hN k)) hle h⟩⟩

/-- The slots behind the last kept one are empty when nothing is cut. -/
theorem slot_eq_zero_of_no_cut {i : ℕ} (hN : 0 < N) (hp : p ≠ 0)
    (h : ∀ b, ¬ Cut N st (k + 1) p c b) (hi : i < N) (hlast : (c - 1) / N ^ k < i) :
    st p i = 0 := by
  by_contra hne
  refine h (st p i) ⟨hp, .inr ⟨i, hi, ?_⟩⟩
  rw [sub_eq_zero_of_div_lt hN hlast, cut_zero]
  exact mem_root hne

theorem child_no_cut {i : ℕ} (hp : p ≠ 0) (h : ∀ b, ¬ Cut N st (k + 1) p c b) (hi : i < N) (b : ℕ) :
    ¬ Cut N st k (st p i) (c - i * N ^ k) b :=
  fun hb => h b ⟨hp, .inr ⟨i, hi, hb⟩⟩

/-- A tree of which nothing is cut. -/
theorem Trims.of_no_cut (hN : 0 < N) (hc : ∀ b, ¬ Cut N st k p c b) (hs : Sep N st k p)
    (h : ∀ b, Mem N st k p b → st' b = st b) : Trims N st st' k p c where
  lookup_eq off hoff := by
    rw [lookup_congr hN hoff h]
    split
    · rfl
    · next hge =>
      by_contra hne
      exact hc _ (lookup_cut hN hoff (by omega) hne)
  mem_iff b := by
    rw [mem_congr h, mem_iff_cut_or_kept (c := c)]
    exact or_iff_right (hc b)
  sep := (sep_congr h).2 hs

/-- What happens elsewhere does not undo a cut. -/
theorem Trims.of_congr {st'' : Store} (hN : 0 < N) (g : Trims N st st' k p c)
    (h : ∀ b, Mem N st k p b → st'' b = st' b) : Trims N st st'' k p c := by
  have h' : ∀ b, Mem N st' k p b → st'' b = st' b := fun b hb =>
    h b ((g.mem_iff b).1 hb).mem
  exact ⟨fun off hoff => (lookup_congr hN hoff h').trans (g.lookup_eq off hoff),
    fun b => (mem_congr h').trans (g.mem_iff b), (sep_congr h').2 g.sep⟩

/-- **Trimming a node.**  The children below the last kept one are untouched, the last one is trimmed
itself, and the slots behind it are cleared. -/
theorem Trims.node {last : ℕ} (hN : 0 < N) (hp : p ≠ 0) (hc : 0 < c)
    (hs : Sep N st (k + 1) p) (hlast : last = (c - 1) / N ^ k)
    (hslots : ∀ i ≤ last, st' p i = st p i) (hcleared : ∀ i < N, last < i → st' p i = 0)
    (hbelow : ∀ i < last, ∀ b, Mem N st k (st p i) b → st' b = st b)
    (g : Trims N st st' k (st p last) (c - last * N ^ k)) :
    Trims N st st' (k + 1) p c := by
  have hpow : 0 < N ^ k := pow_pos hN k
  have hfull : ∀ i < last, N ^ k ≤ c - i * N ^ k := fun i hi => le_sub_of_lt_div (hlast ▸ hi)
  have hnone : ∀ i, last < i → c - i * N ^ k = 0 := fun i hi =>
    sub_eq_zero_of_div_lt hN (hlast ▸ hi)
  refine ⟨fun off hoff => ?_, fun b => ?_, fun _ => ?_⟩
  · rw [lookup, lookup, if_neg hp, if_neg hp]
    have hidx := div_lt_of_lt_pow hN hoff
    have hmod : off % N ^ k < N ^ k := Nat.mod_lt _ hpow
    have hdm := Nat.div_add_mod' off (N ^ k)
    rcases lt_trichotomy (off / N ^ k) last with h | h | h
    · rw [hslots _ h.le, lookup_congr hN hmod (hbelow _ h), if_pos]
      have := hfull _ h
      omega
    · rw [h] at hdm ⊢
      rw [hslots _ le_rfl, g.lookup_eq _ hmod]
      have hpos : 0 < c - last * N ^ k := hlast ▸ sub_last_pos hc
      refine if_congr ?_ rfl rfl
      omega
    · rw [hcleared _ hidx h, lookup_null, if_neg]
      have hzero := hnone _ h
      have hle := Nat.div_mul_le_self off (N ^ k)
      omega
  · constructor
    · rintro ⟨_, rfl | ⟨i, hi, hb⟩⟩
      · exact ⟨hp, hc, .inl rfl⟩
      · rcases lt_trichotomy i last with h | rfl | h
        · rw [hslots i h.le, mem_congr (hbelow i h)] at hb
          exact ⟨hp, hc, .inr ⟨i, hi, (kept_of_le (hfull i h) hN).2 hb⟩⟩
        · rw [hslots i le_rfl, g.mem_iff] at hb
          exact ⟨hp, hc, .inr ⟨i, hi, hb⟩⟩
        · rw [hcleared i hi h] at hb
          exact absurd hb not_mem_null
    · rintro ⟨_, _, rfl | ⟨i, hi, hb⟩⟩
      · exact mem_root hp
      · rcases lt_trichotomy i last with h | rfl | h
        · refine mem_of_child hp hi ?_
          rw [hslots i h.le, mem_congr (hbelow i h)]
          exact hb.mem
        · refine mem_of_child hp hi ?_
          rw [hslots i le_rfl, g.mem_iff]
          exact hb
        · rw [hnone i h] at hb
          exact absurd hb not_kept_zero
  · have hch : ∀ i < N, ∀ b, Mem N st' k (st' p i) b → Mem N st k (st p i) b := by
      intro i hi b hb
      rcases lt_trichotomy i last with h | rfl | h
      · rwa [hslots i h.le, mem_congr (hbelow i h)] at hb
      · rw [hslots i le_rfl, g.mem_iff] at hb
        exact hb.mem
      · rw [hcleared i hi h] at hb
        exact absurd hb not_mem_null
    refine ⟨fun i hi hb => hs.root_not_mem hp hi (hch i hi _ hb), fun i hi => ?_,
      fun i hi j hj hij b hb hb' => hs.disjoint hp hi hj hij (hch i hi b hb) (hch j hj b hb')⟩
    rcases lt_trichotomy i last with h | rfl | h
    · rw [hslots i h.le]
      exact (sep_congr (hbelow i h)).2 (hs.child hp hi)
    · rw [hslots i le_rfl]
      exact g.sep
    · rw [hcleared i hi h]
      exact sep_null

end Tree

end PtrTree
