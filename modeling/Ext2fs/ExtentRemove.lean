import Ext2fs.ExtentTruncate

/-!
# `ext4_ext_rm_extent` on a part of an extent

The function is given a part of one extent, by its first byte and its length in blocks.  What is left of
the extent is one piece of it, so a part that leaves two pieces takes one of them along.

* `Piece` — an entry is replaced by a piece of it, or taken out, and what the leaf maps then;
* `cutEntry_piece` — the removal as such a replacement;
* `RmRight` — what the removal of a part should do;
* `rm_extent_right_iff` — it does when **the part is not in the middle**, and only then.
-/

namespace Ext2fs

/-! ### Leaves -/

namespace ExtNode

/-- The leaf maps a logical block to a physical one. -/
def MapsTo (n : ExtNode) (l p : ℕ) : Prop :=
  ∃ i, 1 ≤ i ∧ i ≤ n.ecount ∧ n.Covers i l ∧ p = n.start i + (l - n.blk i)

/-- The entries of `m` are pieces of entries of `n` in the same order, with the same physical blocks;
`f` is the entry a piece comes from. -/
structure Pieces (n m : ExtNode) (f : ℕ → ℕ) : Prop where
  mono : ∀ i j, 1 ≤ i → i < j → j ≤ m.ecount → f i < f j
  one_le : ∀ j, 1 ≤ j → j ≤ m.ecount → 1 ≤ f j
  le_ecount : ∀ j, 1 ≤ j → j ≤ m.ecount → f j ≤ n.ecount
  len_pos : ∀ j, 1 ≤ j → j ≤ m.ecount → 1 ≤ m.len j
  blk_le : ∀ j, 1 ≤ j → j ≤ m.ecount → n.blk (f j) ≤ m.blk j
  le_end : ∀ j, 1 ≤ j → j ≤ m.ecount → m.blk j + m.len j ≤ n.blk (f j) + n.len (f j)
  start_eq : ∀ j, 1 ≤ j → j ≤ m.ecount → m.start j = n.start (f j) + (m.blk j - n.blk (f j))

variable {n m : ExtNode} {f : ℕ → ℕ} {lo hi l p : ℕ}

/-- **Pieces of sorted extents** are sorted extents. -/
theorem Pieces.extents (h : Pieces n m f) (hext : n.Extents lo hi) : m.Extents lo hi := by
  refine ⟨h.len_pos, fun j hj hje => ?_, fun j hj hje => ?_, fun j hj hje => ?_,
    fun i j hi hij hje => ?_⟩
  · have hlen := hext.len_le (f j) (h.one_le j hj hje) (h.le_ecount j hj hje)
    have hblk := h.blk_le j hj hje
    have hend := h.le_end j hj hje
    omega
  · exact (hext.lo_le (f j) (h.one_le j hj hje) (h.le_ecount j hj hje)).trans (h.blk_le j hj hje)
  · exact (h.le_end j hj hje).trans (hext.le_hi (f j) (h.one_le j hj hje) (h.le_ecount j hj hje))
  · have hlt := h.mono i j hi hij hje
    have hsorted := hext.sorted (f i) (f j) (h.one_le i hi (by omega)) hlt (h.le_ecount j (by omega) hje)
    have hend := h.le_end i hi (by omega)
    have hblk := h.blk_le j (by omega) hje
    omega

/-- What a piece maps, the entry it comes from maps. -/
theorem Pieces.maps (h : Pieces n m f) {j : ℕ} (hj : 1 ≤ j) (hje : j ≤ m.ecount) (hc : m.Covers j l) :
    n.Covers (f j) l ∧ m.start j + (l - m.blk j) = n.start (f j) + (l - n.blk (f j)) := by
  have hblk := h.blk_le j hj hje
  have hend := h.le_end j hj hje
  have hstart := h.start_eq j hj hje
  obtain ⟨h1, h2⟩ := hc
  refine ⟨⟨by omega, by omega⟩, ?_⟩
  rw [hstart]
  omega

/-- Of the entry in slot `s` only the blocks from `a` to `b` are left, none where the two are equal, and
the other entries stay. -/
structure Cut (n m : ExtNode) (s a b : ℕ) (f : ℕ → ℕ) : Prop extends Pieces n m f where
  kept : ∀ i l, 1 ≤ i → i ≤ n.ecount → n.Covers i l →
    (i = s → n.blk s + a ≤ l ∧ l < n.blk s + b) → ∃ j, 1 ≤ j ∧ j ≤ m.ecount ∧ f j = i ∧ m.Covers j l
  within : ∀ j l, 1 ≤ j → j ≤ m.ecount → f j = s → m.Covers j l →
    n.blk s + a ≤ l ∧ l < n.blk s + b

/-- **What a cut leaf maps**: what it mapped, without the blocks of the entry that are not left. -/
theorem Cut.maps_iff {s a b : ℕ} (h : Cut n m s a b f) (hext : n.Extents lo hi) (hs : 1 ≤ s)
    (he : s ≤ n.ecount) :
    m.MapsTo l p ↔ n.MapsTo l p ∧ ¬(n.Covers s l ∧ ¬(n.blk s + a ≤ l ∧ l < n.blk s + b)) := by
  constructor
  · rintro ⟨j, hj, hje, hc, rfl⟩
    obtain ⟨hcn, hstart⟩ := h.maps hj hje hc
    have h1 := h.one_le j hj hje
    have h2 := h.le_ecount j hj hje
    refine ⟨⟨f j, h1, h2, hcn, hstart⟩, ?_⟩
    rintro ⟨hcs, hout⟩
    have hfs : f j = s := hext.covers_unique h1 h2 hs he hcn hcs
    exact hout (h.within j l hj hje hfs hc)
  · rintro ⟨⟨i, hi1, hie, hc, rfl⟩, hin⟩
    obtain ⟨j, hj, hje, rfl, hcm⟩ := h.kept i l hi1 hie hc fun his => by
      subst his
      by_contra hout
      exact hin ⟨hc, hout⟩
    exact ⟨j, hj, hje, hcm, (h.maps hj hje hcm).2.symm⟩

/-! ### The two ways to cut an entry -/

variable {s a b : ℕ}

theorem blk_of_entry {j : ℕ} (h : m.entry j = n.entry (f j)) : m.blk j = n.blk (f j) :=
  congrArg Ext4Extent.blk h

theorem len_of_entry {j : ℕ} (h : m.entry j = n.entry (f j)) : m.len j = n.len (f j) :=
  congrArg Ext4Extent.len h

theorem start_of_entry {j : ℕ} (h : m.entry j = n.entry (f j)) : m.start j = n.start (f j) := by
  have h1 := congrArg Ext4Extent.startLo h
  have h2 := congrArg Ext4Extent.startHi h
  exact congrArg₂ (fun x y => x + y * 2 ^ 32) h1 h2

/-- **An entry that is taken out.** -/
theorem cut_removed (hext : n.Extents lo hi) (hs : 1 ≤ s) (he : s ≤ n.ecount) (hlt : n.ecount < 2 ^ 16)
    (a : ℕ) : Cut n (n.removed s) s a a fun j => if j < s then j else j + 1 := by
  have hcount := (removed_header hs he hlt).1
  have hentry : ∀ j, 1 ≤ j → j ≤ (n.removed s).ecount →
      (n.removed s).entry j = n.entry (if j < s then j else j + 1) := by
    intro j hj hje
    rw [removed_entry he hj (by omega)]
    split <;> rfl
  refine { mono := ?_, one_le := ?_, le_ecount := ?_, len_pos := ?_, blk_le := ?_, le_end := ?_,
           start_eq := ?_, kept := ?_, within := ?_ }
  · intro i j _ hij _
    split <;> split <;> omega
  · intro j hj _
    split <;> omega
  · intro j hj hje
    split <;> omega
  · intro j hj hje
    rw [len_of_entry (f := fun j => if j < s then j else j + 1) (hentry j hj hje)]
    refine hext.len_pos _ ?_ ?_
    · split <;> omega
    · split <;> omega
  · intro j hj hje
    exact (blk_of_entry (f := fun j => if j < s then j else j + 1) (hentry j hj hje)).ge
  · intro j hj hje
    have h1 := blk_of_entry (f := fun j => if j < s then j else j + 1) (hentry j hj hje)
    have h2 := len_of_entry (f := fun j => if j < s then j else j + 1) (hentry j hj hje)
    exact (congrArg₂ (· + ·) h1 h2).le
  · intro j hj hje
    rw [blk_of_entry (f := fun j => if j < s then j else j + 1) (hentry j hj hje),
      start_of_entry (f := fun j => if j < s then j else j + 1) (hentry j hj hje), Nat.sub_self]
    exact (Nat.add_zero _).symm
  · intro i l hi1 hie hc hin
    have his : i ≠ s := fun his => by
      have := hin his
      omega
    obtain ⟨j, hj, hje, hf⟩ : ∃ j, 1 ≤ j ∧ j ≤ (n.removed s).ecount ∧
        (if j < s then j else j + 1) = i := by
      rcases Nat.lt_or_gt_of_ne his with hlt' | hgt
      · exact ⟨i, hi1, by omega, if_pos hlt'⟩
      · refine ⟨i - 1, by omega, by omega, ?_⟩
        rw [if_neg (by omega)]
        omega
    refine ⟨j, hj, hje, hf, ?_⟩
    rw [covers_entry (hentry j hj hje), hf]
    exact hc
  · intro j l _ _ hf
    split at hf <;> omega

/-- The piece of an entry from block `a` to block `b`. -/
def piece (e : Ext4Extent) (a b : ℕ) : Ext4Extent := ⟨e.blk + a, b - a, e.startHi, e.startLo + a⟩

/-- **An entry that is replaced by a piece of it.** -/
theorem cut_put (hext : n.Extents lo hi) (hs : 1 ≤ s) (hab : a < b) (hb : b ≤ n.len s) :
    Cut n (n.put s (piece (n.entry s) a b)) s a b id := by
  have hcount : (n.put s (piece (n.entry s) a b)).ecount = n.ecount :=
    (header_put (by omega : 0 ≠ s)).ecount
  have hlen16 : (piece (n.entry s) a b).len < 2 ^ 16 := by
    have := n.len_lt s
    show b - a < 2 ^ 16
    omega
  have hentry : ∀ j, (n.put s (piece (n.entry s) a b)).entry j =
      if j = s then piece (n.entry s) a b else n.entry j := fun j => entry_put hlen16
  have hother : ∀ j, j ≠ s → (n.put s (piece (n.entry s) a b)).entry j = n.entry (id j) := by
    intro j hj
    rw [hentry, if_neg hj]
    rfl
  have hblk : (n.put s (piece (n.entry s) a b)).blk s = n.blk s + a := by
    have h := congrArg Ext4Extent.blk (hentry s)
    rw [if_pos rfl] at h
    exact h
  have hlen : (n.put s (piece (n.entry s) a b)).len s = b - a := by
    have h := congrArg Ext4Extent.len (hentry s)
    rw [if_pos rfl] at h
    exact h
  have hstart : (n.put s (piece (n.entry s) a b)).start s = n.start s + a := by
    have h1 := congrArg Ext4Extent.startLo (hentry s)
    have h2 := congrArg Ext4Extent.startHi (hentry s)
    rw [if_pos rfl] at h1 h2
    have h := congrArg₂ (fun x y => x + y * 2 ^ 32) h1 h2
    unfold start
    refine h.trans ?_
    show n.startLo s + a + n.startHi s * 2 ^ 32 = n.startLo s + n.startHi s * 2 ^ 32 + a
    omega
  refine { mono := ?_, one_le := ?_, le_ecount := ?_, len_pos := ?_, blk_le := ?_, le_end := ?_,
           start_eq := ?_, kept := ?_, within := ?_ }
  · exact fun i j _ hij _ => hij
  · exact fun j hj _ => hj
  · exact fun j _ hje => hje.trans hcount.le
  · intro j hj hje
    by_cases hjs : j = s
    · subst hjs
      omega
    · rw [len_of_entry (hother j hjs)]
      exact hext.len_pos j hj (hje.trans hcount.le)
  · intro j _ _
    by_cases hjs : j = s
    · subst hjs
      rw [hblk]
      exact Nat.le_add_right _ _
    · exact (blk_of_entry (hother j hjs)).ge
  · intro j _ _
    by_cases hjs : j = s
    · subst hjs
      rw [hblk, hlen]
      simp only [id]
      omega
    · exact (congrArg₂ (· + ·) (blk_of_entry (hother j hjs)) (len_of_entry (hother j hjs))).le
  · intro j _ _
    by_cases hjs : j = s
    · subst hjs
      rw [hblk, hstart]
      simp only [id]
      omega
    · rw [blk_of_entry (hother j hjs), start_of_entry (hother j hjs), Nat.sub_self, Nat.add_zero]
  · intro i l hi1 hie hc hin
    refine ⟨i, hi1, hie.trans hcount.ge, rfl, ?_⟩
    by_cases his : i = s
    · subst his
      obtain ⟨h1, h2⟩ := hin rfl
      unfold Covers
      rw [hblk, hlen]
      omega
    · exact (covers_entry (hother i his)).2 hc
  · intro j l _ _ hjs hc
    obtain rfl : j = s := hjs
    unfold Covers at hc
    rw [hblk, hlen] at hc
    omega

/-! ### The removal as a cut -/

/-- What is left of an entry of `len` blocks without the `m` blocks from `off` on: the blocks behind them
when they are the first ones, else those in front of them. -/
def leftFrom (off m : ℕ) : ℕ := if off = 0 then m else 0

@[inherit_doc leftFrom]
def leftTo (off len : ℕ) : ℕ := if off = 0 then len else off

/-- An entry that is not taken out becomes the piece that is left. -/
theorem cutExtent_piece {e : Ext4Extent} {off k : ℕ} (hk : 1 ≤ k) (hoff : off + k ≤ e.len)
    (hpart : ¬(off = 0 ∧ k = e.len)) (hlen : e.len < 2 ^ 16) (hlo : e.startLo + e.len < 2 ^ 32)
    (hblk : e.blk + e.len ≤ 2 ^ 32) :
    cutExtent e (e.startLo + off) k = piece e (leftFrom off k) (leftTo off e.len) := by
  unfold cutExtent piece leftFrom leftTo
  by_cases h0 : off = 0
  · have hk' : k < e.len := by omega
    have h1 : u32 ((e.startLo : ℤ) + k) = e.startLo + k := by
      unfold u32
      omega
    have h2 : u32 ((e.blk : ℤ) + k) = e.blk + k := by
      unfold u32
      omega
    have h3 : (e.len + (2 ^ 16 - k % 2 ^ 16)) % 2 ^ 16 = e.len - k := by omega
    subst h0
    rw [if_pos (Nat.add_zero _), if_pos rfl, if_pos rfl, h1, h2, h3]
  · rw [if_neg (by omega), if_neg h0, if_neg h0, Nat.add_zero, Nat.add_zero, Nat.sub_zero]
    have h1 : (u32 (((e.startLo + off : ℕ) : ℤ) + k) = u32 ((e.startLo : ℤ) + e.len)) =
        (off + k = e.len) := by
      unfold u32
      apply propext
      constructor <;> intro h <;> omega
    have h2 : (e.len + (2 ^ 16 - k % 2 ^ 16)) % 2 ^ 16 = e.len - k := by omega
    have h3 : u32 (((e.startLo + off : ℕ) : ℤ) - e.startLo) % 2 ^ 16 = off := by
      unfold u32
      omega
    simp only [h1, h2, h3]
    by_cases hend : off + k = e.len
    · rw [if_pos hend, show e.len - k = off by omega]
    · rw [if_neg hend]

/-- **The removal of a part of an entry** cuts the entry. -/
theorem cutEntry_cut {off k : ℕ} (hext : n.Extents lo hi) (hs : 1 ≤ s) (he : s ≤ n.ecount)
    (hlt : n.ecount < 2 ^ 16) (hk : 1 ≤ k) (hoff : off + k ≤ n.len s)
    (hlo : n.startLo s + n.len s < 2 ^ 32) (hblk : n.blk s + n.len s ≤ 2 ^ 32) :
    ∃ f, Cut n (cutEntry n s (n.startLo s + off) k) s (leftFrom off k) (leftTo off (n.len s)) f := by
  unfold cutEntry
  by_cases hall : off = 0 ∧ k = n.len s
  · rw [if_pos ⟨by omega, hall.2⟩]
    have hempty : leftFrom off k = leftTo off (n.len s) := by
      unfold leftFrom leftTo
      rw [if_pos hall.1, if_pos hall.1, hall.2]
    rw [← hempty]
    exact ⟨_, cut_removed hext hs he hlt _⟩
  · have hpiece : cutExtent (n.entry s) (n.startLo s + off) k =
        piece (n.entry s) (leftFrom off k) (leftTo off (n.len s)) :=
      cutExtent_piece hk hoff hall (n.len_lt s) hlo hblk
    rw [if_neg (by omega), hpiece]
    refine ⟨id, cut_put hext hs ?_ ?_⟩
    · unfold leftFrom leftTo
      show _ < if off = 0 then n.len s else off
      split <;> omega
    · unfold leftTo
      show (if off = 0 then n.len s else off) ≤ _
      split <;> omega

/-- The header of a leaf that lost blocks of one entry is that of a leaf still. -/
theorem cutEntry_leaf {off k : ℕ} (hhead : n.Header 0) (hs : 1 ≤ s) (he : s ≤ n.ecount)
    (hlt : n.ecount < 2 ^ 16) : (cutEntry n s off k).Header 0 := by
  obtain ⟨hdepth, hcount⟩ := cutEntry_header hs he hlt off k
  have hsame : (cutEntry n s off k).magic = n.magic ∧ (cutEntry n s off k).max = n.max := by
    unfold cutEntry
    split
    · have hput := (header_put (n := n.shiftDown s (n.ecount - s)) (e := ⟨0, 0, 0, 0⟩)
        (by omega : 0 ≠ s + (n.ecount - s))).trans (shiftDown_header n hs _)
      obtain ⟨h1, -, h3, -⟩ := header_setEcount
        (n := (n.shiftDown s (n.ecount - s)).put (s + (n.ecount - s)) ⟨0, 0, 0, 0⟩)
        (((n.shiftDown s (n.ecount - s)).put (s + (n.ecount - s)) ⟨0, 0, 0, 0⟩).ecount + (2 ^ 16 - 1))
      exact ⟨h1.trans hput.magic, h3.trans hput.max⟩
    · have hput := header_put (n := n) (e := cutExtent (n.entry s) off k) (by omega : 0 ≠ s)
      exact ⟨hput.magic, hput.max⟩
  refine ⟨hsame.1.trans hhead.magic, hdepth.trans hhead.depth, ?_⟩
  rw [hcount, hsame.2]
  have hle := hhead.ecount_le
  split <;> omega

end ExtNode

/-! ### The call -/

section

variable {fs : MExt2fs} {bitmapOk : ℤ → Bool} {w : World} {header : NodeRef} {s off k lo hi : ℕ}

variable (fs bitmapOk w) in
/-- The calls of `ext2_blkfree` of the removal. -/
theorem freeRun_freed (start : ℕ) (k : ℕ) :
    ∃ es : List FreeEvent, (freeRun fs bitmapOk start k w).freed = w.freed ++ es ∧
      es.map FreeEvent.bno = (List.range k).map fun i : ℕ => ((u32 ((start : ℤ) + i) : ℕ) : ℤ) := by
  induction k with
  | zero => exact ⟨[], (List.append_nil _).symm, rfl⟩
  | succ k ih =>
    obtain ⟨es, hfreed, hbno⟩ := ih
    refine ⟨es ++ [⟨u32 ((start : ℤ) + k), (freeRun fs bitmapOk start k w).dev,
      (freeRun fs bitmapOk start k w).image⟩], ?_, ?_⟩
    · rw [freeRun, World.blkfree_freed, hfreed, List.append_assoc]
    · rw [List.map_append, hbno, List.range_succ, List.map_append]
      rfl

/-- A well-formed leaf: its extents are sorted and disjoint, end below 2^32, lie on the volume, and are
counted in `i_blocks`. -/
structure WfLeaf (fs : MExt2fs) (w : World) (header : NodeRef) (lo hi : ℕ) : Prop where
  head : (w.node fs header).Header 0
  extents : (w.node fs header).Extents lo hi
  hi_le : hi ≤ 2 ^ 32
  on_volume : ∀ i, 1 ≤ i → i ≤ (w.node fs header).ecount →
    (w.node fs header).start i + (w.node fs header).len i ≤ fs.bcount
  counted : ∀ i, 1 ≤ i → i ≤ (w.node fs header).ecount →
    btodb fs.bsize * (w.node fs header).len i ≤ w.ip.blocks

/-- A logical block of the part that is asked for: `k` blocks of the entry in slot `s` from its block
`off` on. -/
def Requested (n : ExtNode) (s off k l : ℕ) : Prop := n.blk s + off ≤ l ∧ l < n.blk s + off + k

/-- **What the removal of a part should do.** -/
structure RmRight (fs : MExt2fs) (w : World) (header : NodeRef) (lo hi s off k : ℕ)
    (r : Option Errno × World) : Prop where
  ok : r.1 = none
  /-- Each physical block of a logical block that is no longer mapped is freed once, and nothing else. -/
  freed : ∃ es : List FreeEvent, r.2.freed = w.freed ++ es ∧ (es.map FreeEvent.bno).Nodup ∧
    ∀ bno, bno ∈ es.map FreeEvent.bno ↔ ∃ l p : ℕ, bno = p ∧ (w.node fs header).MapsTo l p ∧
      ∀ q, ¬(r.2.node fs header).MapsTo l q
  gone : ∀ l p, Requested (w.node fs header) s off k l → ¬(r.2.node fs header).MapsTo l p
  kept : ∀ l p, ¬Requested (w.node fs header) s off k l →
    ((r.2.node fs header).MapsTo l p ↔ (w.node fs header).MapsTo l p)
  leaf : (r.2.node fs header).Header 0 ∧ (r.2.node fs header).Extents lo hi
  others : ∀ ref, ref ≠ header → r.2.node fs ref = w.node fs ref
  blocks : r.2.ip.blocks + btodb fs.bsize * k = w.ip.blocks

/-- The call for a part of an entry: the first byte of the part, and its length in blocks. -/
def rmPart (fs : MExt2fs) (bitmapOk : ℤ → Bool) (w : World) (header : NodeRef) (s off k : ℕ) :
    Option Errno × World :=
  ext4ExtRmExtent fs bitmapOk ⟨header, some s⟩ (((w.node fs header).blk s + off) * fs.bsize) k w

namespace WfLeaf

theorem ecount_lt (h : WfLeaf fs w header lo hi) : (w.node fs header).ecount < 2 ^ 16 :=
  lt_of_le_of_lt h.head.ecount_le (ExtNode.max_lt _)

/-- The physical blocks of an entry have 32 bits, so `e_start_hi` is 0. -/
theorem start_lt (h : WfLeaf fs w header lo hi) (hs : 1 ≤ s) (he : s ≤ (w.node fs header).ecount) :
    (w.node fs header).start s = (w.node fs header).startLo s ∧
      (w.node fs header).startLo s + (w.node fs header).len s < 2 ^ 32 := by
  have hvol := h.on_volume s hs he
  have hlt := fs.bcount_lt
  unfold ExtNode.start at hvol ⊢
  omega

theorem blk_end (h : WfLeaf fs w header lo hi) (hs : 1 ≤ s) (he : s ≤ (w.node fs header).ecount) :
    (w.node fs header).blk s + (w.node fs header).len s ≤ 2 ^ 32 :=
  (h.extents.le_hi s hs he).trans h.hi_le

end WfLeaf

/-- Where the call begins and how much it frees, for a part of an entry. -/
theorem rm_part (fs : MExt2fs) {n : ExtNode} (hk : 1 ≤ k) (hoff : off + k ≤ n.len s)
    (hlo : n.startLo s + n.len s < 2 ^ 32) :
    rmStart fs n s ((n.blk s + off) * fs.bsize) = n.startLo s + off ∧
      rmLen fs n s ((n.blk s + off) * fs.bsize) k = k := by
  have hpos := fs.bsize_pos
  have hblock : fs.lblkno ((n.blk s + off) * fs.bsize) = n.blk s + off := Nat.mul_div_cancel _ hpos
  have hstart : rmStart fs n s ((n.blk s + off) * fs.bsize) = n.startLo s + off := by
    unfold rmStart
    rw [hblock]
    by_cases h0 : off = 0
    · subst h0
      exact if_neg (Nat.lt_irrefl _)
    · rw [if_pos (Nat.mul_lt_mul_of_pos_right (by omega) hpos)]
      unfold u32
      omega
  refine ⟨hstart, ?_⟩
  unfold rmLen
  rw [hstart]
  have hdist : u32 ((n.len s : ℤ) - u32 (((n.startLo s + off : ℕ) : ℤ) - n.startLo s)) =
      n.len s - off := by
    unfold u32
    omega
  rw [hdist]
  split <;> omega

variable (bitmapOk) in
/-- **The call for a part of an entry**: what it frees and what it writes. -/
theorem rmPart_run (h : WfLeaf fs w header lo hi) (hs : 1 ≤ s) (he : s ≤ (w.node fs header).ecount)
    (hk : 1 ≤ k) (hoff : off + k ≤ (w.node fs header).len s) :
    (rmPart fs bitmapOk w header s off k).1 = none ∧
      (∀ ref, (rmPart fs bitmapOk w header s off k).2.node fs ref = if ref = header then
        cutEntry (w.node fs header) s ((w.node fs header).startLo s + off) k else w.node fs ref) ∧
      (rmPart fs bitmapOk w header s off k).2.ip.blocks = w.ip.blocks - btodb fs.bsize * k ∧
      ∃ es : List FreeEvent, (rmPart fs bitmapOk w header s off k).2.freed = w.freed ++ es ∧
        es.map FreeEvent.bno =
          (List.range k).map fun i => (((w.node fs header).start s + off + i : ℕ) : ℤ) := by
  obtain ⟨hstart, hlo⟩ := h.start_lt hs he
  obtain ⟨hfrom, hlen⟩ := rm_part fs hk hoff hlo
  have hk31 : (i32 k).toNat = k := by
    have := (w.node fs header).len_lt s
    rw [i32_of_lt (by omega) (by omega), Int.toNat_natCast]
  have hrun : rmPart fs bitmapOk w header s off k = (none,
      (((freeRun fs bitmapOk ((w.node fs header).startLo s + off) k w).subBlocks
        (btodb fs.bsize * k)).mark.setNode fs header
          (cutEntry (w.node fs header) s ((w.node fs header).startLo s + off) k))) := by
    unfold rmPart ext4ExtRmExtent
    simp only [hfrom, hlen, hk31]
  rw [hrun]
  refine ⟨rfl, fun ref => ?_, ?_, ?_⟩
  · simp only [World.node_setNode, World.node_mark, World.node_subBlocks, freeRun_node]
  · have hblocks (v : World) (c : ExtNode) : (v.setNode fs header c).ip.blocks = v.ip.blocks := by
      cases header <;> rfl
    rw [hblocks]
    show (freeRun fs bitmapOk ((w.node fs header).startLo s + off) k w).ip.blocks - _ = _
    rw [freeRun_ip]
  · obtain ⟨es, hfreed, hbno⟩ := freeRun_freed fs bitmapOk w ((w.node fs header).startLo s + off) k
    refine ⟨es, (World.setNode_freed header _).trans hfreed, ?_⟩
    rw [hbno]
    refine List.map_congr_left fun i hi => ?_
    have hik := List.mem_range.1 hi
    have hsum : u32 (((w.node fs header).startLo s + off : ℕ) + (i : ℤ)) =
        (w.node fs header).startLo s + off + i := by
      unfold u32
      omega
    rw [hsum, hstart]

/-- The blocks of the entry that are not left are those that are asked for, unless the part is in the
middle. -/
theorem requested_iff {n : ExtNode} {l : ℕ} (hoff : off + k ≤ n.len s)
    (hend : off = 0 ∨ off + k = n.len s) :
    (n.Covers s l ∧ ¬(n.blk s + ExtNode.leftFrom off k ≤ l ∧
      l < n.blk s + ExtNode.leftTo off (n.len s))) ↔ Requested n s off k l := by
  unfold ExtNode.Covers ExtNode.leftFrom ExtNode.leftTo Requested
  rcases Nat.eq_zero_or_pos off with h0 | hpos
  · rw [if_pos h0, if_pos h0]
    omega
  · rw [if_neg (by omega), if_neg (by omega)]
    omega

/-- What the entry maps. -/
theorem mapsTo_entry {n : ExtNode} {d : ℕ} (hs : 1 ≤ s) (he : s ≤ n.ecount) (hd : d < n.len s) :
    n.MapsTo (n.blk s + d) (n.start s + d) := by
  refine ⟨s, hs, he, ⟨Nat.le_add_right _ _, Nat.add_lt_add_left hd _⟩, ?_⟩
  rw [Nat.add_sub_cancel_left]

theorem rm_right (h : WfLeaf fs w header lo hi) (hs : 1 ≤ s) (he : s ≤ (w.node fs header).ecount)
    (hk : 1 ≤ k) (hoff : off + k ≤ (w.node fs header).len s)
    (hend : off = 0 ∨ off + k = (w.node fs header).len s) :
    RmRight fs w header lo hi s off k (rmPart fs bitmapOk w header s off k) := by
  obtain ⟨hok, hnode, hblocks, es, hfreed, hbno⟩ := rmPart_run bitmapOk h hs he hk hoff
  obtain ⟨f, hcut⟩ := ExtNode.cutEntry_cut h.extents hs he h.ecount_lt hk hoff (h.start_lt hs he).2
    (h.blk_end hs he)
  have hleaf := hnode header
  rw [if_pos rfl] at hleaf
  have hmaps : ∀ l p, ((rmPart fs bitmapOk w header s off k).2.node fs header).MapsTo l p ↔
      (w.node fs header).MapsTo l p ∧ ¬Requested (w.node fs header) s off k l := by
    intro l p
    rw [hleaf, hcut.maps_iff h.extents hs he, requested_iff hoff hend]
  refine ⟨hok, ⟨es, hfreed, ?_, fun bno => ?_⟩, fun l p hreq hm => ?_, fun l p hreq => ?_, ⟨?_, ?_⟩,
    fun ref hne => ?_, ?_⟩
  · rw [hbno]
    refine List.Nodup.map (fun i j hij => ?_) List.nodup_range
    have hij' : (w.node fs header).start s + off + i = (w.node fs header).start s + off + j :=
      Int.ofNat.inj hij
    omega
  · rw [hbno, List.mem_map]
    constructor
    · rintro ⟨i, hi, rfl⟩
      have hik := List.mem_range.1 hi
      refine ⟨(w.node fs header).blk s + (off + i), _, rfl, ?_, fun q hq => ?_⟩
      · rw [Nat.add_assoc]
        exact mapsTo_entry hs he (by omega)
      · exact ((hmaps _ q).1 hq).2 ⟨by omega, by omega⟩
    · rintro ⟨l, p, rfl, hm, hno⟩
      -- what stops being mapped was asked for, so it is a block of the entry
      have hreq : Requested (w.node fs header) s off k l := by
        by_contra hreq
        exact hno p ((hmaps l p).2 ⟨hm, hreq⟩)
      obtain ⟨i, hi1, hie, hc, rfl⟩ := hm
      have hcs : (w.node fs header).Covers s l :=
        ((requested_iff hoff hend).2 hreq).1
      obtain rfl : i = s := h.extents.covers_unique hi1 hie hs he hc hcs
      obtain ⟨h1, h2⟩ := hreq
      refine ⟨l - (w.node fs header).blk i - off, List.mem_range.2 (by omega), ?_⟩
      congr 1
      omega
  · exact ((hmaps l p).1 hm).2 hreq
  · rw [hmaps l p, and_iff_left hreq]
  · rw [hleaf]
    exact ExtNode.cutEntry_leaf h.head hs he h.ecount_lt
  · rw [hleaf]
    exact hcut.extents h.extents
  · rw [hnode ref, if_neg hne]
  · have hcount := h.counted s hs he
    have hle : btodb fs.bsize * k ≤ btodb fs.bsize * (w.node fs header).len s :=
      Nat.mul_le_mul_left _ (by omega)
    omega

/-- A part in the middle of an extent: the block behind it is not asked for, and is gone all the same. -/
theorem not_right_of_middle (h : WfLeaf fs w header lo hi) (hs : 1 ≤ s)
    (he : s ≤ (w.node fs header).ecount) (hk : 1 ≤ k) (hpos : 0 < off)
    (hlt : off + k < (w.node fs header).len s) :
    ¬RmRight fs w header lo hi s off k (rmPart fs bitmapOk w header s off k) := by
  intro hright
  obtain ⟨-, hnode, -⟩ := rmPart_run bitmapOk h hs he hk hlt.le
  obtain ⟨f, hcut⟩ := ExtNode.cutEntry_cut h.extents hs he h.ecount_lt hk hlt.le (h.start_lt hs he).2
    (h.blk_end hs he)
  have hleaf := hnode header
  rw [if_pos rfl] at hleaf
  have hbefore := mapsTo_entry (n := w.node fs header) hs he hlt
  have hafter := (hright.kept _ _ fun hreq => by
    unfold Requested at hreq
    omega).2 hbefore
  rw [hleaf, hcut.maps_iff h.extents hs he] at hafter
  refine hafter.2 ⟨⟨by omega, by omega⟩, ?_⟩
  unfold ExtNode.leftTo
  rw [if_neg (by omega)]
  omega

/-- **`ext4_ext_rm_extent` is right** for the parts at the start and at the end of an extent and for
the whole of it, and for no part in the middle, whose blocks behind it are lost. -/
theorem rm_extent_right_iff (h : WfLeaf fs w header lo hi) (hs : 1 ≤ s)
    (he : s ≤ (w.node fs header).ecount) (hk : 1 ≤ k) (hoff : off + k ≤ (w.node fs header).len s) :
    RmRight fs w header lo hi s off k (rmPart fs bitmapOk w header s off k) ↔
      off = 0 ∨ off + k = (w.node fs header).len s := by
  refine ⟨fun hright => ?_, rm_right h hs he hk hoff⟩
  by_contra hmid
  exact not_right_of_middle h hs he hk (by omega) (by omega) hright

end

/-- A root leaf whose one extent has the logical blocks 0 to 7 at block 100. -/
def eightBlocks : World := { oneExtent with ip := { oneExtent.ip with blocks := 64 } }

theorem eightBlocks_wf : WfLeaf volume4k eightBlocks none 0 8 := by
  have hcount : (eightBlocks.node volume4k none).ecount = 1 := by decide
  have hone : ∀ {i : ℕ}, 1 ≤ i → i ≤ (eightBlocks.node volume4k none).ecount → i = 1 := by omega
  refine ⟨⟨by decide, by decide, by decide⟩, ⟨fun i h1 hi => ?_, fun i h1 hi => ?_,
    fun _ _ _ => Nat.zero_le _, fun i h1 hi => ?_, fun i j h1 hij hj => by omega⟩, by decide,
    fun i h1 hi => ?_, fun i h1 hi => ?_⟩
  all_goals
    obtain rfl := hone h1 hi
    decide

/-- The last three of the eight blocks. -/
theorem rm_extent_end : RmRight volume4k eightBlocks none 0 8 1 5 3
    (rmPart volume4k (fun _ => true) eightBlocks none 1 5 3) ↔
      5 = 0 ∨ 5 + 3 = (eightBlocks.node volume4k none).len 1 :=
  rm_extent_right_iff eightBlocks_wf (by decide) (by decide) (by decide) (by decide)

/-- **Three blocks in the middle**, and the three behind them are lost. -/
theorem rm_extent_middle : ¬RmRight volume4k eightBlocks none 0 8 1 2 3
    (rmPart volume4k (fun _ => true) eightBlocks none 1 2 3) :=
  not_right_of_middle eightBlocks_wf (by decide) (by decide) (by decide) (by decide) (by decide)

end Ext2fs
