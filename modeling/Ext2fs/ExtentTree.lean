import Ext2fs.Extents

/-!
# Extent trees

What the nodes mean, independently of the search.  A tree of height 0 is a leaf, whose extents are
sorted and disjoint; a tree of height `k + 1` is an index node over trees of height `k`, each of which
keeps to the range between its key and the next one.

* `WfTree`, `World.ExtWf` — the tree of an inode is well formed;
* `Maps`, `World.ExtMaps` — the physical block of a logical block;
* `find_of_maps` — the search finds the extent that covers a block.
-/

namespace Ext2fs

open BinarySearch

namespace ExtNode

/-- The header of a node of the given height. -/
structure Header (n : ExtNode) (k : ℕ) : Prop where
  magic : n.magic = EXT4_EXT_MAGIC
  depth : n.depth = k
  ecount_le : n.ecount ≤ n.max

/-- The extents of a leaf are sorted and disjoint, none of them empty or longer than an initialized
extent can be, within the given range. -/
structure Extents (n : ExtNode) (lo hi : ℕ) : Prop where
  len_pos : ∀ i, 1 ≤ i → i ≤ n.ecount → 1 ≤ n.len i
  len_le : ∀ i, 1 ≤ i → i ≤ n.ecount → n.len i ≤ 32768
  lo_le : ∀ i, 1 ≤ i → i ≤ n.ecount → lo ≤ n.blk i
  le_hi : ∀ i, 1 ≤ i → i ≤ n.ecount → n.blk i + n.len i ≤ hi
  sorted : ∀ i j, 1 ≤ i → i < j → j ≤ n.ecount → n.blk i + n.len i ≤ n.blk j

/-- The keys of an index node increase, within the given range. -/
structure Keys (n : ExtNode) (lo hi : ℕ) : Prop where
  lo_le : ∀ i, 1 ≤ i → i ≤ n.ecount → lo ≤ n.blk i
  lt_hi : ∀ i, 1 ≤ i → i ≤ n.ecount → n.blk i < hi
  sorted : ∀ i j, 1 ≤ i → i < j → j ≤ n.ecount → n.blk i < n.blk j

/-- Where the range of an index entry ends. -/
def rangeEnd (n : ExtNode) (hi i : ℕ) : ℕ := if i < n.ecount then n.blk (i + 1) else hi

/-- The extent in a slot covers a logical block. -/
def Covers (n : ExtNode) (i lbn : ℕ) : Prop := n.blk i ≤ lbn ∧ lbn < n.blk i + n.len i

instance (n : ExtNode) (i lbn : ℕ) : Decidable (n.Covers i lbn) :=
  inferInstanceAs (Decidable (_ ∧ _))

theorem Extents.sortedKeys {n : ExtNode} {lo hi : ℕ} (h : n.Extents lo hi) (lbn : ℕ) :
    Sorted (fun m => lbn < n.blk m) 1 n.ecount := by
  intro i j hi hij hj hlt
  rcases Nat.eq_or_lt_of_le hij with rfl | hlt'
  · exact hlt
  · exact lt_of_lt_of_le hlt (by have := h.sorted i j hi hlt' hj; omega)

theorem Keys.sortedKeys {n : ExtNode} {lo hi : ℕ} (h : n.Keys lo hi) (lbn : ℕ) :
    Sorted (fun m => lbn < n.blk m) 1 n.ecount := by
  intro i j hi hij hj hlt
  rcases Nat.eq_or_lt_of_le hij with rfl | hlt'
  · exact hlt
  · exact hlt.trans (h.sorted i j hi hlt' hj)

/-- The search in a leaf finds the extent that covers the block. -/
theorem Extents.binsearch_eq {n : ExtNode} {lo hi i lbn : ℕ} (h : n.Extents lo hi) (hi1 : 1 ≤ i)
    (hie : i ≤ n.ecount) (hc : n.Covers i lbn) : n.binsearch lbn = i := by
  refine BinarySearch.search_eq Nat.one_pos (h.sortedKeys lbn) hi1 hie (by have := hc.1; omega) fun j hij hj => ?_
  have := h.sorted i j hi1 hij hj
  have := hc.2
  omega

/-- The search in an index node finds the entry in whose range the block is. -/
theorem Keys.binsearch_eq {n : ExtNode} {lo hi i lbn : ℕ} (h : n.Keys lo hi) (hi1 : 1 ≤ i)
    (hie : i ≤ n.ecount) (hlo : n.blk i ≤ lbn) (hhi : lbn < n.rangeEnd hi i) :
    n.binsearch lbn = i := by
  refine BinarySearch.search_eq Nat.one_pos (h.sortedKeys lbn) hi1 hie (by omega) fun j hij hj => ?_
  unfold rangeEnd at hhi
  rw [if_pos (by omega)] at hhi
  rcases Nat.eq_or_lt_of_le hij with rfl | hlt
  · exact hhi
  · exact hhi.trans (h.sorted (i + 1) j (by omega) hlt hj)

theorem Keys.rangeEnd_le {n : ExtNode} {lo hi i : ℕ} (h : n.Keys lo hi) : n.rangeEnd hi i ≤ hi := by
  unfold rangeEnd
  split
  · exact (h.lt_hi (i + 1) (by omega) (by omega)).le
  · exact le_rfl

end ExtNode

/-- The tree of height `k` at a node is well formed, and its blocks lie in the given range. -/
def WfTree (fs : MExt2fs) (read : ℤ → Bool) (w : World) : ℕ → NodeRef → ℕ → ℕ → Prop
  | 0, ref, lo, hi => (w.node fs ref).Header 0 ∧ (w.node fs ref).Extents lo hi
  | k + 1, ref, lo, hi =>
      (w.node fs ref).Header (k + 1) ∧ (w.node fs ref).Keys lo hi ∧
      ∀ i, 1 ≤ i → i ≤ (w.node fs ref).ecount →
        read (fs.fsbtodb ((w.node fs ref).leaf i : ℕ)) = true ∧
        WfTree fs read w k (some ((w.node fs ref).leaf i)) ((w.node fs ref).blk i)
          ((w.node fs ref).rangeEnd hi i)

/-- The tree of height `k` at a node maps a logical block to a physical one. -/
def Maps (fs : MExt2fs) (w : World) : ℕ → NodeRef → ℕ → ℕ → Prop
  | 0, ref, lbn, p => ∃ i, 1 ≤ i ∧ i ≤ (w.node fs ref).ecount ∧ (w.node fs ref).Covers i lbn ∧
      p = (w.node fs ref).start i + (lbn - (w.node fs ref).blk i)
  | k + 1, ref, lbn, p => ∃ i, 1 ≤ i ∧ i ≤ (w.node fs ref).ecount ∧
      Maps fs w k (some ((w.node fs ref).leaf i)) lbn p

/-- A leaf of the tree of height `k` at a node. -/
def TreeLeaf (fs : MExt2fs) (w : World) : ℕ → NodeRef → NodeRef → Prop
  | 0, ref, leaf => leaf = ref
  | k + 1, ref, leaf => ∃ i, 1 ≤ i ∧ i ≤ (w.node fs ref).ecount ∧
      TreeLeaf fs w k (some ((w.node fs ref).leaf i)) leaf

namespace World

/-- The extent tree of the inode is well formed. -/
def ExtWf (fs : MExt2fs) (read : ℤ → Bool) (w : World) : Prop :=
  ∃ hi, WfTree fs read w (w.node fs none).depth none 0 hi

/-- The extent tree of the inode maps a logical block to a physical one. -/
def ExtMaps (fs : MExt2fs) (w : World) (lbn p : ℕ) : Prop :=
  Maps fs w (w.node fs none).depth none lbn p

/-- A leaf of the extent tree of the inode. -/
def ExtLeaf (fs : MExt2fs) (w : World) (leaf : NodeRef) : Prop :=
  TreeLeaf fs w (w.node fs none).depth none leaf

/-- Some extent covers the logical block. -/
def ExtCovered (fs : MExt2fs) (w : World) (lbn : ℕ) : Prop := ∃ p, w.ExtMaps fs lbn p

end World

section

variable {fs : MExt2fs} {read : ℤ → Bool} {w : World} {k lo hi lbn p : ℕ} {ref : NodeRef}

theorem WfTree.header (h : WfTree fs read w k ref lo hi) : (w.node fs ref).Header k := by
  cases k with
  | zero => exact h.1
  | succ k => exact h.1

theorem WfTree.sortedKeys (h : WfTree fs read w k ref lo hi) (lbn : ℕ) :
    Sorted (fun m => lbn < (w.node fs ref).blk m) 1 (w.node fs ref).ecount := by
  cases k with
  | zero => exact h.2.sortedKeys lbn
  | succ k => exact h.2.1.sortedKeys lbn

/-- A tree maps blocks of its range only. -/
theorem Maps.range (h : WfTree fs read w k ref lo hi) (hm : Maps fs w k ref lbn p) :
    lo ≤ lbn ∧ lbn < hi := by
  induction k generalizing ref lo hi with
  | zero =>
    obtain ⟨i, hi1, hie, hc, _⟩ := hm
    have h1 := h.2.lo_le i hi1 hie
    have h2 := h.2.le_hi i hi1 hie
    exact ⟨h1.trans hc.1, lt_of_lt_of_le hc.2 h2⟩
  | succ k ih =>
    obtain ⟨i, hi1, hie, hm⟩ := hm
    obtain ⟨hlo, hhi⟩ := ih (h.2.2 i hi1 hie).2 hm
    exact ⟨(h.2.1.lo_le i hi1 hie).trans hlo, lt_of_lt_of_le hhi h.2.1.rangeEnd_le⟩

/-- **The search in a tree.**  For a block that is mapped the loop ends at the leaf, and the search there
at the extent. -/
theorem findLoop_of_maps (h : WfTree fs read w k ref lo hi) (hm : Maps fs w k ref lbn p) :
    ∃ leaf, findLoop fs read w lbn k ref = some leaf ∧ (w.node fs leaf).ecount ≠ 0 ∧
      extBlock (w.node fs leaf) ((w.node fs leaf).binsearch lbn) lbn = p := by
  induction k generalizing ref lo hi with
  | zero =>
    obtain ⟨i, hi1, hie, hc, hp⟩ := hm
    refine ⟨ref, rfl, by omega, ?_⟩
    rw [h.2.binsearch_eq hi1 hie hc, hp]
    unfold extBlock
    have := hc.1
    push_cast [this]
    ring
  | succ k ih =>
    obtain ⟨i, hi1, hie, hm⟩ := hm
    obtain ⟨hread, hwf⟩ := h.2.2 i hi1 hie
    obtain ⟨hlo, hhi⟩ := hm.range hwf
    obtain ⟨leaf, hfind, hleaf⟩ := ih hwf hm
    refine ⟨leaf, ?_, hleaf⟩
    rw [findLoop]
    simp only [h.2.1.binsearch_eq hi1 hie hlo hhi, hread, if_true]
    exact hfind

theorem find_of_maps (h : w.ExtWf fs read) (hm : w.ExtMaps fs lbn p) :
    ∃ leaf, ext4ExtFindExtent fs read w lbn = some ⟨leaf, some ((w.node fs leaf).binsearch lbn)⟩ ∧
      extBlock (w.node fs leaf) ((w.node fs leaf).binsearch lbn) lbn = p := by
  obtain ⟨hi, h⟩ := h
  obtain ⟨leaf, hfind, hcount, hp⟩ := findLoop_of_maps h hm
  refine ⟨leaf, ?_, hp⟩
  unfold ext4ExtFindExtent
  simp only [ne_eq, h.header.magic, not_true_eq_false, if_false, hfind, hcount]

/-- A logical block is at one place. -/
theorem maps_func {p' : ℕ} (h : w.ExtWf fs read) (hm : w.ExtMaps fs lbn p)
    (hm' : w.ExtMaps fs lbn p') : p' = p := by
  obtain ⟨leaf, hfind, hp⟩ := find_of_maps h hm
  obtain ⟨leaf', hfind', hp'⟩ := find_of_maps h hm'
  rw [hfind, Option.some.injEq, ExtPath.mk.injEq] at hfind'
  rw [← hfind'.1, hp] at hp'
  exact (Nat.cast_inj.1 hp').symm

/-- The upper end of the range may move up. -/
theorem WfTree.mono {hi' : ℕ} (h : WfTree fs read w k ref lo hi) (hle : hi ≤ hi') :
    WfTree fs read w k ref lo hi' := by
  induction k generalizing ref lo hi hi' with
  | zero => exact ⟨h.1, { h.2 with le_hi := fun i h1 he => (h.2.le_hi i h1 he).trans hle }⟩
  | succ k ih =>
    refine ⟨h.1, { h.2.1 with lt_hi := fun i h1 he => (h.2.1.lt_hi i h1 he).trans_le hle },
      fun i h1 he => ⟨(h.2.2 i h1 he).1, ih (h.2.2 i h1 he).2 ?_⟩⟩
    unfold ExtNode.rangeEnd
    split
    · exact le_rfl
    · exact hle

/-- A leaf of a tree, with the range the keys above leave to it. -/
inductive LeafIn (fs : MExt2fs) (w : World) : ℕ → NodeRef → ℕ → ℕ → NodeRef → ℕ → ℕ → Prop
  | here (ref : NodeRef) (lo hi : ℕ) : LeafIn fs w 0 ref lo hi ref lo hi
  | child {k : ℕ} {ref leaf : NodeRef} {lo hi lo' hi' : ℕ} (i : ℕ) (h1 : 1 ≤ i)
      (he : i ≤ (w.node fs ref).ecount)
      (h : LeafIn fs w k (some ((w.node fs ref).leaf i)) ((w.node fs ref).blk i)
        ((w.node fs ref).rangeEnd hi i) leaf lo' hi') :
      LeafIn fs w (k + 1) ref lo hi leaf lo' hi'

theorem TreeLeaf.leafIn {leaf : NodeRef} (h : TreeLeaf fs w k ref leaf) (lo hi : ℕ) :
    ∃ lo' hi', LeafIn fs w k ref lo hi leaf lo' hi' := by
  induction k generalizing ref lo hi with
  | zero =>
    obtain rfl : leaf = ref := h
    exact ⟨lo, hi, .here leaf lo hi⟩
  | succ k ih =>
    obtain ⟨i, h1, he, h⟩ := h
    obtain ⟨lo', hi', h⟩ := ih h _ _
    exact ⟨lo', hi', .child i h1 he h⟩

theorem LeafIn.treeLeaf {leaf : NodeRef} {lo' hi' : ℕ} (h : LeafIn fs w k ref lo hi leaf lo' hi') :
    TreeLeaf fs w k ref leaf := by
  induction h with
  | here => rfl
  | child i h1 he _ ih => exact ⟨i, h1, he, ih⟩

namespace LeafIn

variable {leaf : NodeRef} {lo' hi' : ℕ}

/-- The leaf is a leaf, and keeps to its range. -/
theorem wf (h : LeafIn fs w k ref lo hi leaf lo' hi') (hwf : WfTree fs read w k ref lo hi) :
    WfTree fs read w 0 leaf lo' hi' := by
  induction h with
  | here => exact hwf
  | child i h1 he _ ih => exact ih (hwf.2.2 i h1 he).2

/-- The range of a leaf is part of the range of the tree. -/
theorem range (h : LeafIn fs w k ref lo hi leaf lo' hi') (hwf : WfTree fs read w k ref lo hi) :
    lo ≤ lo' ∧ hi' ≤ hi := by
  induction h with
  | here => exact ⟨le_rfl, le_rfl⟩
  | child i h1 he _ ih =>
    obtain ⟨hlo, hhi⟩ := ih (hwf.2.2 i h1 he).2
    exact ⟨(hwf.2.1.lo_le i h1 he).trans hlo, hhi.trans hwf.2.1.rangeEnd_le⟩

/-- The search for a block in the range of a leaf ends there. -/
theorem findLoop_eq (h : LeafIn fs w k ref lo hi leaf lo' hi') (hwf : WfTree fs read w k ref lo hi)
    (hlo : lo' ≤ lbn) (hhi : lbn < hi') : findLoop fs read w lbn k ref = some leaf := by
  induction h with
  | here => rfl
  | @child k ref leaf lo hi lo' hi' i h1 he hsub ih =>
    obtain ⟨hread, hwf'⟩ := hwf.2.2 i h1 he
    obtain ⟨hl, hh⟩ := hsub.range hwf'
    rw [findLoop]
    simp only [hwf.2.1.binsearch_eq h1 he (hl.trans hlo) (hhi.trans_le hh), hread, if_true]
    exact ih hwf' hlo hhi

/-- What an extent of a leaf covers, the tree maps. -/
theorem maps (h : LeafIn fs w k ref lo hi leaf lo' hi') {i : ℕ} (h1 : 1 ≤ i)
    (he : i ≤ (w.node fs leaf).ecount) (hc : (w.node fs leaf).Covers i lbn) :
    Maps fs w k ref lbn ((w.node fs leaf).start i + (lbn - (w.node fs leaf).blk i)) := by
  induction h with
  | here => exact ⟨i, h1, he, hc, rfl⟩
  | child j hj1 hje _ ih => exact ⟨j, hj1, hje, ih he hc⟩

/-- A tree with the same index nodes has the same leaves. -/
theorem congr {w' : World} (h : LeafIn fs w k ref lo hi leaf lo' hi')
    (hwf : WfTree fs read w k ref lo hi)
    (hsame : ∀ r, (w.node fs r).depth ≠ 0 → w'.node fs r = w.node fs r) :
    LeafIn fs w' k ref lo hi leaf lo' hi' := by
  induction h with
  | here => exact .here _ _ _
  | @child k ref leaf lo hi lo' hi' i h1 he hsub ih =>
    have href : w'.node fs ref = w.node fs ref := by
      apply hsame
      rw [hwf.header.depth]
      omega
    have h' := ih (hwf.2.2 i h1 he).2
    rw [← href] at he h'
    exact .child i h1 he h'

end LeafIn

/-- The leaf and the extent a mapped block comes from. -/
theorem Maps.leafIn (hm : Maps fs w k ref lbn p) (lo hi : ℕ) :
    ∃ leaf i lo' hi', LeafIn fs w k ref lo hi leaf lo' hi' ∧ 1 ≤ i ∧
      i ≤ (w.node fs leaf).ecount ∧ (w.node fs leaf).Covers i lbn ∧
      p = (w.node fs leaf).start i + (lbn - (w.node fs leaf).blk i) := by
  induction k generalizing ref lo hi with
  | zero =>
    obtain ⟨i, h1, he, hc, hp⟩ := hm
    exact ⟨ref, i, lo, hi, .here _ _ _, h1, he, hc, hp⟩
  | succ k ih =>
    obtain ⟨j, hj1, hje, hm⟩ := hm
    obtain ⟨leaf, i, lo', hi', hleaf, h1, he, hc, hp⟩ := ih hm _ _
    exact ⟨leaf, i, lo', hi', .child j hj1 hje hleaf, h1, he, hc, hp⟩

/-- The leaf in whose range a mapped block lies is the one that maps it. -/
theorem LeafIn.covers_of_maps {leaf : NodeRef} {lo' hi' : ℕ}
    (h : LeafIn fs w k ref lo hi leaf lo' hi') (hwf : WfTree fs read w k ref lo hi)
    (hlo : lo' ≤ lbn) (hhi : lbn < hi') (hm : Maps fs w k ref lbn p) :
    ∃ i, 1 ≤ i ∧ i ≤ (w.node fs leaf).ecount ∧ (w.node fs leaf).Covers i lbn ∧
      p = (w.node fs leaf).start i + (lbn - (w.node fs leaf).blk i) := by
  obtain ⟨leaf₂, i, lo₂, hi₂, hleaf, h1, he, hc, hp⟩ := hm.leafIn lo hi
  have hwf₂ := hleaf.wf hwf
  have hfind := hleaf.findLoop_eq hwf ((hwf₂.2.lo_le i h1 he).trans hc.1)
    (lt_of_lt_of_le hc.2 (hwf₂.2.le_hi i h1 he))
  rw [h.findLoop_eq hwf hlo hhi] at hfind
  injection hfind with hfind
  subst hfind
  exact ⟨i, h1, he, hc, hp⟩

/-- A tree whose index nodes are those of a well-formed tree has no other leaves. -/
theorem LeafIn.of_congr {w' : World} {leaf : NodeRef} {lo' hi' : ℕ}
    (h : LeafIn fs w' k ref lo hi leaf lo' hi') (hwf : WfTree fs read w k ref lo hi)
    (hsame : ∀ r, (w.node fs r).depth ≠ 0 → w'.node fs r = w.node fs r) :
    LeafIn fs w k ref lo hi leaf lo' hi' := by
  induction h with
  | here => exact .here _ _ _
  | @child k ref leaf lo hi lo' hi' i h1 he hsub ih =>
    have href : w'.node fs ref = w.node fs ref := by
      apply hsame
      rw [hwf.header.depth]
      omega
    rw [href] at he ih
    exact .child i h1 he (ih (hwf.2.2 i h1 he).2)

/-- **One leaf has changed.**  What the tree maps now is what the new leaf maps, and what it mapped
outside of the range of that leaf. -/
theorem maps_changed_iff {w' : World} {leaf : NodeRef} {lo' hi' : ℕ}
    (hwf : WfTree fs read w k ref lo hi) (hin : LeafIn fs w k ref lo hi leaf lo' hi')
    (hsame : ∀ r, r ≠ leaf → w'.node fs r = w.node fs r) :
    Maps fs w' k ref lbn p ↔
      (∃ i, 1 ≤ i ∧ i ≤ (w'.node fs leaf).ecount ∧ (w'.node fs leaf).Covers i lbn ∧
        p = (w'.node fs leaf).start i + (lbn - (w'.node fs leaf).blk i)) ∨
      Maps fs w k ref lbn p ∧ ¬ (lo' ≤ lbn ∧ lbn < hi') := by
  have hindex : ∀ r, (w.node fs r).depth ≠ 0 → w'.node fs r = w.node fs r := by
    intro r hr
    apply hsame
    rintro rfl
    exact hr (hin.wf hwf).header.depth
  constructor
  · intro hm
    obtain ⟨leaf₂, i, lo₂, hi₂, hin₂, h1, he, hc, hp⟩ := hm.leafIn lo hi
    by_cases heq : leaf₂ = leaf
    · subst heq
      exact .inl ⟨i, h1, he, hc, hp⟩
    · right
      have hw₂ := hin₂.of_congr hwf hindex
      rw [hsame _ heq] at he hc hp
      refine ⟨hp ▸ hw₂.maps h1 he hc, ?_⟩
      rintro ⟨hlo, hhi⟩
      -- the search for the block would end at both leaves
      have hwf₂ := (hw₂.wf hwf).2
      have hfind := hw₂.findLoop_eq hwf ((hwf₂.lo_le i h1 he).trans hc.1)
        (lt_of_lt_of_le hc.2 (hwf₂.le_hi i h1 he))
      rw [hin.findLoop_eq hwf hlo hhi] at hfind
      injection hfind with hfind
      exact heq hfind.symm
  · rintro (⟨i, h1, he, hc, rfl⟩ | ⟨hm, hout⟩)
    · exact (hin.congr hwf hindex).maps h1 he hc
    · obtain ⟨leaf₂, i, lo₂, hi₂, hin₂, h1, he, hc, rfl⟩ := hm.leafIn lo hi
      have heq : leaf₂ ≠ leaf := by
        rintro rfl
        have hwf₂ := hin.wf hwf
        exact hout ⟨(hwf₂.2.lo_le i h1 he).trans hc.1, lt_of_lt_of_le hc.2 (hwf₂.2.le_hi i h1 he)⟩
      rw [← hsame _ heq] at he hc ⊢
      exact (hin₂.congr hwf hindex).maps h1 he hc

/-- No two extents of a leaf cover the same block. -/
theorem ExtNode.Extents.covers_unique {n : ExtNode} {i j : ℕ} (h : n.Extents lo hi) (hi1 : 1 ≤ i)
    (hie : i ≤ n.ecount) (hj1 : 1 ≤ j) (hje : j ≤ n.ecount) (hc : n.Covers i lbn)
    (hc' : n.Covers j lbn) : i = j :=
  (h.binsearch_eq hi1 hie hc).symm.trans (h.binsearch_eq hj1 hje hc')

/-- The search for a mapped block comes back with the extent that covers it. -/
theorem find_covers (h : w.ExtWf fs read) (hm : w.ExtMaps fs lbn p) :
    ∃ leaf i, ext4ExtFindExtent fs read w lbn = some ⟨leaf, some i⟩ ∧
      (w.node fs leaf).Covers i lbn ∧
      p = (w.node fs leaf).start i + (lbn - (w.node fs leaf).blk i) := by
  obtain ⟨hi, hwf⟩ := h
  obtain ⟨leaf, i, lo', hi', hleaf, h1, he, hc, hp⟩ := Maps.leafIn hm 0 hi
  have hext := (hleaf.wf hwf).2
  have hfind := hleaf.findLoop_eq hwf ((hext.lo_le i h1 he).trans hc.1)
    (lt_of_lt_of_le hc.2 (hext.le_hi i h1 he))
  refine ⟨leaf, i, ?_, hc, hp⟩
  have hne : (w.node fs leaf).ecount ≠ 0 := by omega
  unfold ext4ExtFindExtent
  simp only [ne_eq, hwf.header.magic, not_true_eq_false, if_false, hfind, hne,
    hext.binsearch_eq h1 he hc]

/-- What the search in a leaf says about the slot it returns. -/
theorem WfTree.binsearch_spec (h : WfTree fs read w 0 ref lo hi) (lbn : ℕ) :
    (w.node fs ref).binsearch lbn ≤ (w.node fs ref).ecount ∧
      (1 ≤ (w.node fs ref).binsearch lbn →
        (w.node fs ref).blk ((w.node fs ref).binsearch lbn) ≤ lbn) ∧
      ∀ i, (w.node fs ref).binsearch lbn < i → i ≤ (w.node fs ref).ecount →
        lbn < (w.node fs ref).blk i := by
  obtain ⟨hbelow, habove⟩ := search_spec Nat.one_pos (h.sortedKeys lbn)
  have hb := search_bounds (p := fun m => lbn < (w.node fs ref).blk m)
    (r := (w.node fs ref).ecount) Nat.one_pos
  unfold ExtNode.binsearch
  refine ⟨by omega, fun h1 => ?_, fun i hlt he => habove i (by omega) hlt he⟩
  exact not_lt.1 (hbelow _ h1 le_rfl)

end

end Ext2fs
