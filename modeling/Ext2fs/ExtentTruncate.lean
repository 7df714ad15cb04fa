import Ext2fs.ExtentBalloc
import Ext2fs.ExtentLookup

/-!
# What `ext2_ext_truncate` leaves of an extent-mapped file

One call removes at most one block of one extent, the one the search for the new last block comes
back with.  The comparison that is to tell whether the cut is inside of that extent has a block on one
side and a byte on the other.  Then the call gives up its path, and does not come back; the tree and the
blocks are looked at in the state it does so in.

* `cutEntry_drops` — what a removed block does to the leaf;
* **`extTruncate_correct`** — by then the tree is cut as the caller relies on when the block removed is
  all there was behind the new end, or when there was nothing and nothing is touched; and in no other case,
  unless the search has left the tree.
-/

namespace Ext2fs

/-! ### The leaf -/

namespace ExtNode

variable {n : ExtNode} {s lbn lo hi : ℕ}

/-- A slot that is written with what it holds. -/
theorem put_entry (n : ExtNode) (i : ℕ) : n.put i (n.entry i) = n := by
  funext x
  unfold put putWords entry blk len startHi startLo
  split
  · next h => rw [h]
  · split
    · next h => rw [h]; exact Nat.mod_add_div' _ _
    · split
      · next h => rw [h]
      · rfl

/-- The entries after those from slot `s` on have moved down. -/
theorem shiftDown_entry (n : ExtNode) (s k j : ℕ) :
    (n.shiftDown s k).entry j = if s ≤ j ∧ j < s + k then n.entry (j + 1) else n.entry j := by
  induction k generalizing j with
  | zero =>
    rw [if_neg (by omega)]
    rfl
  | succ k ih =>
    rw [shiftDown, entry_put (entry_len_lt _ _), ih, ih]
    by_cases hj : j = s + k
    · subst hj
      rw [if_pos rfl, if_neg (by omega), if_pos (by omega)]
    · rw [if_neg hj]
      exact if_congr (by omega) rfl rfl

theorem shiftDown_header (n : ExtNode) (hs : 1 ≤ s) (k : ℕ) : SameHeader (n.shiftDown s k) n := by
  induction k with
  | zero => exact ⟨rfl, rfl, rfl, rfl⟩
  | succ k ih => exact (header_put (by omega)).trans ih

theorem removed_header (hs : 1 ≤ s) (he : s ≤ n.ecount) (hlt : n.ecount < 2 ^ 16) :
    (n.removed s).ecount = n.ecount - 1 ∧ (n.removed s).depth = n.depth := by
  have hput := (header_put (n := n.shiftDown s (n.ecount - s)) (e := ⟨0, 0, 0, 0⟩)
    (by omega : 0 ≠ s + (n.ecount - s))).trans (shiftDown_header n hs _)
  obtain ⟨-, h2, -, h4⟩ := header_setEcount
    (n := (n.shiftDown s (n.ecount - s)).put (s + (n.ecount - s)) ⟨0, 0, 0, 0⟩)
    (((n.shiftDown s (n.ecount - s)).put (s + (n.ecount - s)) ⟨0, 0, 0, 0⟩).ecount + (2 ^ 16 - 1))
  unfold removed
  refine ⟨h2.trans ?_, h4.trans hput.depth⟩
  rw [hput.ecount]
  omega

theorem removed_entry (he : s ≤ n.ecount) {j : ℕ} (hj1 : 1 ≤ j) (hj : j + 1 ≤ n.ecount) :
    (n.removed s).entry j = if j < s then n.entry j else n.entry (j + 1) := by
  unfold removed
  rw [entry_setEcount (by omega), entry_put (by decide), if_neg (by omega), shiftDown_entry]
  by_cases hjs : j < s
  · rw [if_pos hjs, if_neg (by omega)]
  · rw [if_neg hjs, if_pos (by omega)]

/-- The header of a leaf that lost blocks of one entry: only `eh_ecount` changes, when the entry
goes. -/
theorem cutEntry_header (hs : 1 ≤ s) (he : s ≤ n.ecount) (hlt : n.ecount < 2 ^ 16) (st ln : ℕ) :
    (cutEntry n s st ln).depth = n.depth ∧
      (cutEntry n s st ln).ecount = if st = n.startLo s ∧ ln = n.len s then n.ecount - 1
        else n.ecount := by
  unfold cutEntry
  split
  · exact ⟨(removed_header hs he hlt).2, (removed_header hs he hlt).1⟩
  · have hput := header_put (n := n) (e := cutExtent (n.entry s) st ln) (by omega : 0 ≠ s)
    exact ⟨hput.depth, hput.ecount⟩

theorem cutExtent_len_lt (e : Ext4Extent) (st ln : ℕ) : (cutExtent e st ln).len < 2 ^ 16 := by
  unfold cutExtent
  split
  · exact Nat.mod_lt _ (by decide)
  · split <;> exact Nat.mod_lt _ (by decide)

/-- The entries of a leaf that lost blocks of one entry, which is still there. -/
theorem cutEntry_entry {st ln : ℕ} (h : ¬ (st = n.startLo s ∧ ln = n.len s)) (j : ℕ) :
    (cutEntry n s st ln).entry j =
      if j = s then cutExtent (n.entry s) st ln else n.entry j := by
  unfold cutEntry
  rw [if_neg h, entry_put (cutExtent_len_lt _ _ _)]

/-- Covering is about the entry. -/
theorem covers_entry {m : ExtNode} {i j : ℕ} (h : m.entry j = n.entry i) :
    m.Covers j lbn ↔ n.Covers i lbn := by
  have hb : m.blk j = n.blk i := congrArg Ext4Extent.blk h
  have hl : m.len j = n.len i := congrArg Ext4Extent.len h
  unfold Covers
  rw [hb, hl]

/-- What is left of an extent when one of its blocks has been freed does not cover that block. -/
theorem cutExtent_drops {e : Ext4Extent} {off : ℕ} (hlen : e.len < 2 ^ 16)
    (hblk : e.blk + e.len ≤ 2 ^ 32) (hoff : off < e.len) :
    let c := cutExtent e (u32 ((e.startLo : ℤ) + off)) 1
    ¬ (c.blk ≤ e.blk + off ∧ e.blk + off < c.blk + c.len) := by
  unfold cutExtent
  split
  · next h =>
    unfold u32 at h ⊢
    dsimp only
    omega
  · next h =>
    split
    · next h' =>
      unfold u32 at h h'
      dsimp only
      omega
    · next h' =>
      unfold u32 at h h' ⊢
      dsimp only
      omega

/-- **One block of an entry is cut.**  Whatever happens to the entry, it no longer covers the
block. -/
theorem cutEntry_drops {off i : ℕ} (hext : n.Extents lo hi) (hs : 1 ≤ s) (he : s ≤ n.ecount)
    (hlt : n.ecount < 2 ^ 16) (hblk : n.blk s + n.len s ≤ 2 ^ 32)
    (hoff : off < n.len s) (h1 : 1 ≤ i)
    (hi : i ≤ (cutEntry n s (u32 ((n.startLo s : ℤ) + off)) 1).ecount) :
    ¬ (cutEntry n s (u32 ((n.startLo s : ℤ) + off)) 1).Covers i (n.blk s + off) := by
  have hself : n.Covers s (n.blk s + off) := ⟨by omega, by omega⟩
  rw [(cutEntry_header hs he hlt _ _).2] at hi
  by_cases hgone : u32 ((n.startLo s : ℤ) + off) = n.startLo s ∧ 1 = n.len s
  · -- the entry goes, and no other one covers the block
    rw [if_pos hgone] at hi
    have hentry := removed_entry (s := s) he h1 (by omega)
    unfold cutEntry
    rw [if_pos hgone]
    by_cases his : i < s
    · rw [if_pos his] at hentry
      rw [covers_entry hentry]
      intro hc
      have heq := hext.covers_unique h1 (by omega) hs he hc hself
      omega
    · rw [if_neg his] at hentry
      rw [covers_entry hentry]
      intro hc
      have heq := hext.covers_unique (by omega) (by omega) hs he hc hself
      omega
  · rw [if_neg hgone] at hi
    have hentry := cutEntry_entry hgone i
    by_cases his : i = s
    · subst his
      rw [if_pos rfl] at hentry
      have hdrops := cutExtent_drops (e := n.entry i) (n.len_lt i) hblk hoff
      have hb : (cutEntry n i (u32 ((n.startLo i : ℤ) + off)) 1).blk i =
        (cutExtent (n.entry i) (u32 ((n.startLo i : ℤ) + off)) 1).blk := by rw [← hentry]; rfl
      have hl : (cutEntry n i (u32 ((n.startLo i : ℤ) + off)) 1).len i =
        (cutExtent (n.entry i) (u32 ((n.startLo i : ℤ) + off)) 1).len := by rw [← hentry]; rfl
      unfold Covers
      rw [hb, hl]
      exact hdrops
    · rw [if_neg his] at hentry
      rw [covers_entry hentry]
      intro hc
      exact his (hext.covers_unique h1 hi hs he hc hself)

end ExtNode

/-! ### The call -/

/-- What a truncation has to free: the data blocks that are no longer mapped, and the leaves that
became empty. -/
def Released (fs : MExt2fs) (w w' : World) (bno : ℤ) : Prop :=
  (∃ p : ℕ, bno = p ∧ (∃ l, w.ExtMaps fs l p) ∧ ∀ l, ¬ w'.ExtMaps fs l p) ∨
    ∃ b : ℕ, bno = b ∧ w.ExtLeaf fs (some b) ∧ (w.node fs (some b)).ecount ≠ 0 ∧
      (w'.node fs (some b)).ecount = 0

/-- What the callers of `ext2_ext_truncate` rely on for the tree and the blocks. -/
structure ExtTruncated (fs : MExt2fs) (w w' : World) (length : ℕ) : Prop where
  kept : ∀ l p, l < fs.coveredBlocks length → (w'.ExtMaps fs l p ↔ w.ExtMaps fs l p)
  gone : ∀ l, fs.coveredBlocks length ≤ l → ¬ w'.ExtCovered fs l
  freed : ∃ es : List FreeEvent, w'.freed = w.freed ++ es ∧ (es.map FreeEvent.bno).Nodup ∧
    ∀ bno, bno ∈ es.map FreeEvent.bno ↔ Released fs w w' bno

/-- What a consistent volume says about the tree of a file: its words and its logical blocks have 32
bits, and no block is used twice. -/
structure World.ExtSound (fs : MExt2fs) (w : World) : Prop where
  words : ∀ ref x, w.node fs ref x < 2 ^ 32
  lbn_lt : ∀ l, w.ExtCovered fs l → l < 2 ^ 32
  inj : ∀ l l' p, w.ExtMaps fs l p → w.ExtMaps fs l' p → l = l'
  disjoint : ∀ b l, w.ExtLeaf fs (some b) → ¬ w.ExtMaps fs l b

section Truncate

variable {fs : MExt2fs} {env : ExtTruncEnv} {w : World} {length s : ℕ} {header : NodeRef}

/-- The length passed to the removal is 1, whatever the new size is. -/
theorem truncLen_eq (fs : MExt2fs) (length : ℕ) :
    (if u32 ((fs.blkoff length + fs.bsize - 1) / 2 ^ fs.bshift : ℕ) = 0 then 1
      else u32 ((fs.blkoff length + fs.bsize - 1) / 2 ^ fs.bshift : ℕ)) = 1 := by
  have hpos := fs.bsize_pos
  have hoff : fs.blkoff length < fs.bsize := Nat.mod_lt _ hpos
  have hdiv : (fs.blkoff length + fs.bsize - 1) / 2 ^ fs.bshift ≤ 1 := by
    change (fs.blkoff length + fs.bsize - 1) / fs.bsize ≤ 1
    rw [← Nat.lt_succ_iff, Nat.div_lt_iff_lt_mul hpos]
    omega
  generalize (fs.blkoff length + fs.bsize - 1) / 2 ^ fs.bshift = d at hdiv
  rw [u32_of_lt (by omega)]
  split <;> omega

theorem rmLen_le (fs : MExt2fs) (n : ExtNode) (ex lbn : ℕ) : rmLen fs n ex lbn 1 ≤ 1 := by
  unfold rmLen
  split <;> exact Nat.min_le_left _ _

/-- What the search and the removal leave when the path is given up. -/
structure Removed (fs : MExt2fs) (w w' : World) (length : ℕ) (header : NodeRef) (s : ℕ) : Prop where
  size : w'.ip.size = w.ip.size
  node : ∀ ref, w'.node fs ref = if ref = header then
    cutEntry (w.node fs header) s (rmStart fs (w.node fs header) s (fs.lblkno length))
      (rmLen fs (w.node fs header) s (fs.lblkno length) 1)
    else w.node fs ref
  freed : ∃ es, w'.freed = w.freed ++ es ∧ es.map FreeEvent.bno =
    if rmLen fs (w.node fs header) s (fs.lblkno length) 1 = 0 then []
    else [(u32 (rmStart fs (w.node fs header) s (fs.lblkno length)) : ℤ)]

@[simp] theorem World.setNode_size (w : World) (ref : NodeRef) (n : ExtNode) :
    (w.setNode fs ref n).ip.size = w.ip.size := by
  cases ref <;> rfl

theorem freeRun_ip {ok : ℤ → Bool} (start k : ℕ) : (freeRun fs ok start k w).ip = w.ip := by
  induction k with
  | zero => rfl
  | succ k ih => rw [freeRun, World.blkfree_ip, ih]

theorem freeRun_node {ok : ℤ → Bool} (start k : ℕ) : (freeRun fs ok start k w).node fs = w.node fs := by
  induction k with
  | zero => rfl
  | succ k ih => rw [freeRun, World.node_blkfree, ih]

variable (env) in
/-- **A search that comes back with an entry**: the call removes from it and gives up its path. -/
theorem extTruncate_run (hlen : length < w.ip.size)
    (hfind : ext4ExtFindExtent fs env.read w (fs.lblkno length) = some ⟨header, some s⟩) :
    ∃ now, ext2ExtTruncate fs env length w = .dropRefs (searchedPath fs env.read w (fs.lblkno length))
        now (env.invalidate, (now.setSize length).mark) ∧ Removed fs w now length header s := by
  have hle := rmLen_le fs (w.node fs header) s (fs.lblkno length)
  generalize hst : rmStart fs (w.node fs header) s (fs.lblkno length) = st
  generalize hln : rmLen fs (w.node fs header) s (fs.lblkno length) 1 = ln at hle
  refine ⟨(((freeRun fs env.bitmapOk st (i32 ln).toNat w).subBlocks (btodb fs.bsize * ln)).mark).setNode
    fs header (cutEntry (w.node fs header) s st ln), ?_, ?_, fun ref => ?_, ?_⟩
  · simp only [ext2ExtTruncate, not_le.2 hlen, if_false, hfind, truncLen_eq, ext4ExtRmExtent, hst, hln]
  · have hsize (v : World) (k : ℕ) : ((v.subBlocks k).mark).ip.size = v.ip.size := rfl
    rw [World.setNode_size, hsize, freeRun_ip]
  · rw [hst, hln]
    simp only [World.node_mark, World.node_setNode, World.node_subBlocks, freeRun_node]
  · rw [hst, hln]
    have hfreed (v : World) (k : ℕ) (c : ExtNode) :
        ((v.subBlocks k).mark.setNode fs header c).freed = v.freed := World.setNode_freed header c
    simp only [hfreed]
    obtain rfl | rfl := Nat.le_one_iff_eq_zero_or_eq_one.1 hle
    · exact ⟨[], (List.append_nil _).symm, rfl⟩
    · refine ⟨[⟨u32 (st + (0 : ℕ)), w.dev, w.image⟩], World.blkfree_freed, ?_⟩
      simp

/-- The first block behind the new end is the block of the new end, or the next one. -/
theorem coveredBlocks_cases (fs : MExt2fs) (length : ℕ) :
    (length % fs.bsize = 0 ∧ fs.coveredBlocks length = fs.lblkno length) ∨
      (length % fs.bsize ≠ 0 ∧ fs.coveredBlocks length = fs.lblkno length + 1) := by
  have hpos := fs.bsize_pos
  have hmod := Nat.mod_lt length hpos
  have hdiv := Nat.div_add_mod length fs.bsize
  unfold MExt2fs.coveredBlocks MExt2fs.lblkno
  by_cases h : length % fs.bsize = 0
  · left
    refine ⟨h, ?_⟩
    rw [Nat.div_eq_iff hpos]
    rw [mul_comm] at hdiv
    omega
  · right
    refine ⟨h, ?_⟩
    rw [Nat.div_eq_iff hpos, Nat.add_mul, one_mul]
    rw [mul_comm] at hdiv
    omega

/-- The search has come back with an entry of a leaf of the tree. -/
structure Found (fs : MExt2fs) (read : ℤ → Bool) (w : World) (header : NodeRef) (s range lo hi : ℕ) :
    Prop where
  sound : w.ExtSound fs
  wf : WfTree fs read w (w.node fs none).depth none 0 range
  leaf : LeafIn fs w (w.node fs none).depth none 0 range header lo hi
  pos : 1 ≤ s
  le : s ≤ (w.node fs header).ecount

namespace Found

variable {read : ℤ → Bool} {range lo hi : ℕ} {w' : World}

theorem ext (h : Found fs read w header s range lo hi) : (w.node fs header).Extents lo hi :=
  (h.leaf.wf h.wf).2

theorem ecount_lt (h : Found fs read w header s range lo hi) : (w.node fs header).ecount < 2 ^ 16 :=
  lt_of_le_of_lt (h.leaf.wf h.wf).1.ecount_le (ExtNode.max_lt _)

theorem len_pos (h : Found fs read w header s range lo hi) : 1 ≤ (w.node fs header).len s :=
  h.ext.len_pos s h.pos h.le

/-- The blocks of the entry are mapped, and in the range of its leaf. -/
theorem maps (h : Found fs read w header s range lo hi) (off : ℕ)
    (hoff : off < (w.node fs header).len s) :
    w.ExtMaps fs ((w.node fs header).blk s + off) ((w.node fs header).start s + off) := by
  have hc : (w.node fs header).Covers s ((w.node fs header).blk s + off) := ⟨by omega, by omega⟩
  have hmaps := h.leaf.maps h.pos h.le hc
  rwa [Nat.add_sub_cancel_left] at hmaps

theorem in_range (h : Found fs read w header s range lo hi) (off : ℕ)
    (hoff : off < (w.node fs header).len s) :
    lo ≤ (w.node fs header).blk s + off ∧ (w.node fs header).blk s + off < hi := by
  have hlo := h.ext.lo_le s h.pos h.le
  have hhi := h.ext.le_hi s h.pos h.le
  omega

/-- The entry ends below `2 ^ 32`. -/
theorem blk_add_len_le (h : Found fs read w header s range lo hi) :
    (w.node fs header).blk s + (w.node fs header).len s ≤ 2 ^ 32 := by
  have hlen := h.len_pos
  have hlast := h.sound.lbn_lt _
    ⟨_, h.maps ((w.node fs header).len s - 1) (by omega)⟩
  omega

/-- What is mapped when the leaf has another content. -/
theorem maps_iff (h : Found fs read w header s range lo hi) {c : ExtNode} {l p : ℕ}
    (hnode : ∀ ref, w'.node fs ref = if ref = header then c else w.node fs ref)
    (hdepth : c.depth = (w.node fs header).depth) :
    w'.ExtMaps fs l p ↔
      (∃ i, 1 ≤ i ∧ i ≤ c.ecount ∧ c.Covers i l ∧ p = c.start i + (l - c.blk i)) ∨
        w.ExtMaps fs l p ∧ ¬ (lo ≤ l ∧ l < hi) := by
  have hroot : (w'.node fs none).depth = (w.node fs none).depth := by
    rw [hnode]
    split
    · next heq => rw [hdepth, heq]
    · rfl
  unfold World.ExtMaps
  rw [hroot, maps_changed_iff h.wf h.leaf fun r hr => by rw [hnode, if_neg hr], hnode, if_pos rfl]

/-- The block of an entry that was cut is no longer mapped. -/
theorem not_covered_of_drop (h : Found fs read w header s range lo hi) (off : ℕ)
    (hoff : off < (w.node fs header).len s)
    (hnode : ∀ ref, w'.node fs ref = if ref = header then
      cutEntry (w.node fs header) s (u32 (((w.node fs header).startLo s : ℤ) + off)) 1
      else w.node fs ref) : ¬ w'.ExtCovered fs ((w.node fs header).blk s + off) := by
  rintro ⟨p, hmaps⟩
  rw [h.maps_iff hnode (ExtNode.cutEntry_header h.pos h.le h.ecount_lt _ _).1] at hmaps
  rcases hmaps with ⟨i, h1, hi, hc, -⟩ | ⟨-, hout⟩
  · exact ExtNode.cutEntry_drops h.ext h.pos h.le h.ecount_lt h.blk_add_len_le hoff h1 hi hc
  · exact hout (h.in_range off hoff)

/-- A block below the new end was cut. -/
theorem not_truncated_of_drop (h : Found fs read w header s range lo hi) (off : ℕ)
    (hoff : off < (w.node fs header).len s)
    (hbelow : (w.node fs header).blk s + off < fs.coveredBlocks length)
    (hnode : ∀ ref, w'.node fs ref = if ref = header then
      cutEntry (w.node fs header) s (u32 (((w.node fs header).startLo s : ℤ) + off)) 1
      else w.node fs ref) : ¬ ExtTruncated fs w w' length := by
  intro htrunc
  have hmaps := (htrunc.kept _ _ hbelow).2 (h.maps off hoff)
  exact h.not_covered_of_drop off hoff hnode ⟨_, hmaps⟩

/-- The other entries of the leaf, and the other leaves, map what they mapped. -/
theorem maps_of_other (h : Found fs read w header s range lo hi) {st ln l p : ℕ}
    (hnode : ∀ ref, w'.node fs ref = if ref = header then cutEntry (w.node fs header) s st ln
      else w.node fs ref)
    (hmaps : w.ExtMaps fs l p) (hother : ¬ (w.node fs header).Covers s l) : w'.ExtMaps fs l p := by
  obtain ⟨hdepth, hecount⟩ := ExtNode.cutEntry_header h.pos h.le h.ecount_lt st ln
  rw [h.maps_iff hnode hdepth]
  by_cases hrange : lo ≤ l ∧ l < hi
  · left
    obtain ⟨i, h1, hi, hc, rfl⟩ := h.leaf.covers_of_maps h.wf hrange.1 hrange.2 hmaps
    have his : i ≠ s := by
      rintro rfl
      exact hother hc
    -- the slot the entry is in now
    obtain ⟨j, hj1, hj, hentry⟩ : ∃ j, 1 ≤ j ∧ j ≤ (cutEntry (w.node fs header) s st ln).ecount ∧
        (cutEntry (w.node fs header) s st ln).entry j = (w.node fs header).entry i := by
      by_cases hgone : st = (w.node fs header).startLo s ∧ ln = (w.node fs header).len s
      · rw [if_pos hgone] at hecount
        have hcut : cutEntry (w.node fs header) s st ln = (w.node fs header).removed s := by
          unfold cutEntry
          rw [if_pos hgone]
        rw [hecount, hcut]
        rcases Nat.lt_or_gt_of_ne his with hlt | hgt
        · refine ⟨i, h1, by have := h.le; omega, ?_⟩
          rw [ExtNode.removed_entry h.le h1 (by have := h.le; omega), if_pos hlt]
        · refine ⟨i - 1, by have := h.pos; omega, by omega, ?_⟩
          rw [ExtNode.removed_entry h.le (by have := h.pos; omega) (by omega), if_neg (by omega),
            Nat.sub_add_cancel h1]
      · rw [if_neg hgone] at hecount
        exact ⟨i, h1, by omega, by rw [ExtNode.cutEntry_entry hgone, if_neg his]⟩
    have hb : (cutEntry (w.node fs header) s st ln).blk j = (w.node fs header).blk i :=
      congrArg Ext4Extent.blk hentry
    have hs : (cutEntry (w.node fs header) s st ln).start j = (w.node fs header).start i := by
      have h1 := congrArg Ext4Extent.startLo hentry
      have h2 := congrArg Ext4Extent.startHi hentry
      exact congrArg₂ (fun x y => x + y * 2 ^ 32) h1 h2
    exact ⟨j, hj1, hj, (ExtNode.covers_entry hentry).2 hc, by rw [hb, hs]⟩
  · exact .inr ⟨hmaps, hrange⟩

/-- A leaf whose entry went maps nothing new. -/
theorem maps_of_removed (h : Found fs read w header s range lo hi) {l p : ℕ}
    (hnode : ∀ ref, w'.node fs ref = if ref = header then (w.node fs header).removed s
      else w.node fs ref)
    (hmaps : w'.ExtMaps fs l p) : w.ExtMaps fs l p := by
  obtain ⟨hecount, hdepth⟩ := ExtNode.removed_header h.pos h.le h.ecount_lt
  rw [h.maps_iff hnode hdepth] at hmaps
  rcases hmaps with ⟨j, hj1, hj, hc, rfl⟩ | ⟨hmaps, -⟩
  · rw [hecount] at hj
    obtain ⟨i, h1, hi, hentry⟩ : ∃ i, 1 ≤ i ∧ i ≤ (w.node fs header).ecount ∧
        ((w.node fs header).removed s).entry j = (w.node fs header).entry i := by
      have hentry := ExtNode.removed_entry h.le hj1 (by omega)
      by_cases hjs : j < s
      · exact ⟨j, hj1, by omega, by rw [hentry, if_pos hjs]⟩
      · exact ⟨j + 1, by omega, by omega, by rw [hentry, if_neg hjs]⟩
    have hb : ((w.node fs header).removed s).blk j = (w.node fs header).blk i :=
      congrArg Ext4Extent.blk hentry
    have hs : ((w.node fs header).removed s).start j = (w.node fs header).start i := by
      have h1 := congrArg Ext4Extent.startLo hentry
      have h2 := congrArg Ext4Extent.startHi hentry
      exact congrArg₂ (fun x y => x + y * 2 ^ 32) h1 h2
    rw [hb, hs]
    exact h.leaf.maps h1 hi ((ExtNode.covers_entry hentry).1 hc)
  · exact hmaps

/-- A block was freed, and the entry is still there: the block is none that had to be freed, if the
entry was in front of the new end. -/
theorem not_truncated_of_free (h : Found fs read w header s range lo hi) {st ln bno : ℕ}
    (hkeep : ¬ (st = (w.node fs header).startLo s ∧ ln = (w.node fs header).len s))
    (hnode : ∀ ref, w'.node fs ref = if ref = header then cutEntry (w.node fs header) s st ln
      else w.node fs ref)
    (hbelow : (w.node fs header).blk s + (w.node fs header).len s ≤ fs.coveredBlocks length)
    (hfreed : ∃ es : List FreeEvent, w'.freed = w.freed ++ es ∧
      es.map FreeEvent.bno = [(bno : ℤ)]) : ¬ ExtTruncated fs w w' length := by
  intro htrunc
  obtain ⟨es, hes, hbno⟩ := hfreed
  obtain ⟨es', hes', -, hiff⟩ := htrunc.freed
  obtain rfl : es = es' := List.append_cancel_left (hes.symm.trans hes')
  rw [hbno] at hiff
  obtain ⟨p, -, ⟨l, hmaps⟩, hno⟩ | ⟨b, -, -, hne, hzero⟩ :=
    (hiff (bno : ℤ)).1 (List.mem_singleton_self _)
  · by_cases hc : (w.node fs header).Covers s l
    · exact hno l ((htrunc.kept l p (lt_of_lt_of_le hc.2 hbelow)).2 hmaps)
    · exact hno l (h.maps_of_other hnode hmaps hc)
  · have hecount := (ExtNode.cutEntry_header h.pos h.le h.ecount_lt st ln).2
    rw [if_neg hkeep] at hecount
    rw [hnode] at hzero
    split at hzero
    · next heq =>
      rw [hecount, ← heq] at hzero
      exact hne hzero
    · exact hne hzero

end Found

/-! ### The three places the cut can be at -/

/-- The block that goes is all there was behind the new end. -/
structure CutsLastBlock (fs : MExt2fs) (w : World) (length : ℕ) (header : NodeRef) (s : ℕ) : Prop where
  aligned : length % fs.bsize = 0
  blk : (w.node fs header).blk s = fs.lblkno length
  len : (w.node fs header).len s = 1
  startHi : (w.node fs header).startHi s = 0
  last : ∀ l, fs.lblkno length < l → ¬ w.ExtCovered fs l
  leaf : header = none ∨ 2 ≤ (w.node fs header).ecount

/-- Nothing goes, and nothing was there. -/
structure CutsNothing (fs : MExt2fs) (w : World) (length : ℕ) (header : NodeRef) (s : ℕ) : Prop where
  behind : (w.node fs header).blk s * fs.bsize < fs.lblkno length
  len : u32 ((fs.lblkno (fs.lblkno length) : ℤ) - (w.node fs header).blk s) =
    (w.node fs header).len s
  last : ∀ l, fs.coveredBlocks length ≤ l → ¬ w.ExtCovered fs l

/-- The distance of the cut from the start of the entry, as the removal computes it. -/
def cutOffset (fs : MExt2fs) (n : ExtNode) (s lbn : ℕ) : ℕ := u32 ((fs.lblkno lbn : ℤ) - n.blk s)

theorem rm_inside {n : ExtNode} {lbn : ℕ} (h : n.blk s * fs.bsize < lbn) :
    rmStart fs n s lbn = u32 ((n.startLo s : ℤ) + cutOffset fs n s lbn) ∧
      rmLen fs n s lbn 1 = if cutOffset fs n s lbn = n.len s then 0 else 1 := by
  have hlen := n.len_lt s
  have hoff : cutOffset fs n s lbn < 2 ^ 32 := u32_lt _
  have hst : rmStart fs n s lbn = u32 ((n.startLo s : ℤ) + cutOffset fs n s lbn) := by
    unfold rmStart cutOffset
    rw [if_pos h]
  refine ⟨hst, ?_⟩
  unfold rmLen
  rw [if_pos h, hst]
  generalize cutOffset fs n s lbn = off at hoff
  have hdist : u32 ((u32 ((n.startLo s : ℤ) + off) : ℤ) - n.startLo s) = off := by
    unfold u32
    omega
  rw [hdist]
  unfold u32
  split <;> omega

theorem rm_outside {n : ExtNode} {lbn : ℕ} (h : ¬ n.blk s * fs.bsize < lbn) (hlen : 1 ≤ n.len s) :
    rmStart fs n s lbn = n.startLo s ∧ rmLen fs n s lbn 1 = 1 := by
  unfold rmLen rmStart
  rw [if_neg h, if_neg h]
  exact ⟨rfl, by omega⟩

/-- A cut inside of an entry is at a block below the new end. -/
theorem cutOffset_below {n : ExtNode} (h : n.blk s * fs.bsize < fs.lblkno length) :
    n.blk s + cutOffset fs n s (fs.lblkno length) < fs.coveredBlocks length := by
  have hpos := fs.bsize_pos
  have hbig : 2 ≤ fs.bsize := by
    rcases fs.bsize_cases with h | h | h <;> omega
  have hle : n.blk s ≤ fs.lblkno (fs.lblkno length) :=
    (Nat.le_div_iff_mul_le hpos).2 h.le
  have hlt : fs.lblkno (fs.lblkno length) < fs.lblkno length :=
    Nat.div_lt_self (Nat.zero_lt_of_lt h) hbig
  have hoff : cutOffset fs n s (fs.lblkno length) ≤ fs.lblkno (fs.lblkno length) - n.blk s := by
    unfold cutOffset u32
    omega
  have hcov := coveredBlocks_cases fs length
  omega

section Cases

variable {read : ℤ → Bool} {range lo hi : ℕ} {w' : World}

/-- With nothing cut and nothing behind the new end the call is right. -/
theorem truncated_of_same (hnode : w'.node fs = w.node fs)
    (hfreed : w'.freed = w.freed) (hlast : ∀ l, fs.coveredBlocks length ≤ l → ¬ w.ExtCovered fs l) :
    ExtTruncated fs w w' length := by
  have hmaps (l p : ℕ) : w'.ExtMaps fs l p ↔ w.ExtMaps fs l p := by
    have hstep (k : ℕ) (ref : NodeRef) : Maps fs w' k ref l p ↔ Maps fs w k ref l p := by
      induction k generalizing ref with
      | zero => simp only [Maps, hnode]
      | succ k ih => simp only [Maps, hnode, ih]
    unfold World.ExtMaps
    rw [hnode]
    exact hstep _ _
  refine ⟨fun l p _ => hmaps l p, fun l hl => ?_, [], by rw [hfreed, List.append_nil],
    List.nodup_nil, fun bno => ?_⟩
  · rintro ⟨p, hp⟩
    exact hlast l hl ⟨p, (hmaps l p).1 hp⟩
  · simp only [List.map_nil, List.not_mem_nil, false_iff]
    rintro (⟨p, -, ⟨l, hp⟩, hno⟩ | ⟨b, -, -, hne, hzero⟩)
    · exact hno l ((hmaps l p).2 hp)
    · rw [hnode] at hzero
      exact hne hzero

/-- A cut inside of the entry: only the one that touches nothing is right. -/
theorem inside_iff (h : Found fs read w header s range lo hi) (hr : Removed fs w w' length header s)
    (hinside : (w.node fs header).blk s * fs.bsize < fs.lblkno length) :
    ExtTruncated fs w w' length ↔ CutsNothing fs w length header s := by
  obtain ⟨hst, hln⟩ := rm_inside hinside
  have hbelow := cutOffset_below hinside
  have hofflt : cutOffset fs (w.node fs header) s (fs.lblkno length) < 2 ^ 32 := u32_lt _
  have hlolt : (w.node fs header).startLo s < 2 ^ 32 := h.sound.words _ _
  have hnode := hr.node
  have hfreed := hr.freed
  have hlen := h.len_pos
  have hlt := (w.node fs header).len_lt s
  rw [hst, hln] at hnode hfreed
  rcases Nat.lt_trichotomy (cutOffset fs (w.node fs header) s (fs.lblkno length))
    ((w.node fs header).len s) with hoff | hoff | hoff
  · -- a block of the entry goes
    rw [if_neg hoff.ne] at hnode
    refine iff_of_false (h.not_truncated_of_drop _ hoff hbelow hnode) fun hc => ?_
    exact hoff.ne hc.len
  · -- just behind the entry: nothing is freed
    rw [if_pos hoff, hoff] at hnode
    rw [if_pos hoff, if_pos rfl] at hfreed
    have hcut : cutEntry (w.node fs header) s
        (u32 (((w.node fs header).startLo s : ℤ) + (w.node fs header).len s)) 0 =
        w.node fs header := by
      have hne : u32 (((w.node fs header).startLo s : ℤ) + (w.node fs header).len s) ≠
          (w.node fs header).startLo s := by
        unfold u32
        omega
      have hself : cutExtent ((w.node fs header).entry s)
          (u32 (((w.node fs header).startLo s : ℤ) + (w.node fs header).len s)) 0 =
          (w.node fs header).entry s := by
        unfold cutExtent ExtNode.entry
        dsimp only
        rw [if_neg hne, if_pos (by unfold u32; omega)]
        simp only [Ext4Extent.mk.injEq, true_and, and_true]
        omega
      unfold cutEntry
      rw [if_neg (fun hc => hne hc.1), hself, ExtNode.put_entry]
    have hsame : w'.node fs = w.node fs := by
      funext ref
      rw [hnode, hcut]
      split
      · next heq => rw [heq]
      · rfl
    obtain ⟨es, hes, hnil⟩ := hfreed
    obtain rfl : es = [] := List.map_eq_nil_iff.1 hnil
    rw [List.append_nil] at hes
    constructor
    · intro htrunc
      refine ⟨hinside, hoff, fun l hl => ?_⟩
      rintro ⟨p, hp⟩
      have hmaps := h.maps_of_other hnode hp
      refine htrunc.gone l hl ⟨p, hmaps ?_⟩
      intro hc
      have hup := hc.2
      rw [hoff] at hbelow
      omega
    · intro hc
      exact truncated_of_same hsame hes hc.last
  · -- a block behind the entry goes, which is not the block that was there
    rw [if_neg hoff.ne'] at hnode hfreed
    rw [if_neg Nat.one_ne_zero] at hfreed
    refine iff_of_false (h.not_truncated_of_free ?_ hnode (by omega) hfreed) fun hc => ?_
    · rintro ⟨heq, -⟩
      unfold u32 at heq
      omega
    · exact hoff.ne' hc.len

/-- One block is freed at the start of the entry. -/
structure CutAtStart (fs : MExt2fs) (w w' : World) (length : ℕ) (header : NodeRef) (s : ℕ) :
    Prop where
  node : ∀ ref, w'.node fs ref = if ref = header then
    cutEntry (w.node fs header) s ((w.node fs header).startLo s) 1 else w.node fs ref
  freed : ∃ es, w'.freed = w.freed ++ es ∧
    es.map FreeEvent.bno = [((w.node fs header).startLo s : ℤ)]

theorem Removed.outside (hr : Removed fs w w' length header s) (hsound : w.ExtSound fs)
    (houtside : ¬ (w.node fs header).blk s * fs.bsize < fs.lblkno length)
    (hlen : 1 ≤ (w.node fs header).len s) : CutAtStart fs w w' length header s := by
  obtain ⟨hst, hln⟩ := rm_outside houtside hlen
  have hlolt : (w.node fs header).startLo s < 2 ^ 32 := hsound.words _ _
  have hnode := hr.node
  have hfreed := hr.freed
  rw [hst, hln] at hnode hfreed
  rw [if_neg Nat.one_ne_zero, u32_of_lt hlolt] at hfreed
  exact ⟨hnode, hfreed⟩

namespace CutAtStart

/-- The first block of the entry is no longer mapped. -/
theorem node_off (hr : CutAtStart fs w w' length header s) (h : Found fs read w header s range lo hi)
    (ref : NodeRef) : w'.node fs ref = if ref = header then
      cutEntry (w.node fs header) s (u32 (((w.node fs header).startLo s : ℤ) + (0 : ℕ))) 1
      else w.node fs ref := by
  have hlolt : (w.node fs header).startLo s < 2 ^ 32 := h.sound.words _ _
  rw [Nat.cast_zero, add_zero, u32_of_lt hlolt]
  exact hr.node ref

theorem dropped (hr : CutAtStart fs w w' length header s)
    (h : Found fs read w header s range lo hi) : ¬ w'.ExtCovered fs ((w.node fs header).blk s) :=
  h.not_covered_of_drop 0 h.len_pos (hr.node_off h)

/-- An entry of one block goes as a whole. -/
theorem node_removed (hr : CutAtStart fs w w' length header s)
    (hone : (w.node fs header).len s = 1) (ref : NodeRef) :
    w'.node fs ref = if ref = header then (w.node fs header).removed s else w.node fs ref := by
  have hcut : cutEntry (w.node fs header) s ((w.node fs header).startLo s) 1 =
      (w.node fs header).removed s := by
    unfold cutEntry
    rw [if_pos ⟨rfl, hone.symm⟩]
  rw [← hcut]
  exact hr.node ref

/-- An entry of more than one block keeps the next one. -/
theorem covered_next (hr : CutAtStart fs w w' length header s)
    (h : Found fs read w header s range lo hi) (hne : (w.node fs header).len s ≠ 1) :
    w'.ExtCovered fs ((w.node fs header).blk s + 1) := by
  have hkeep : ¬ ((w.node fs header).startLo s = (w.node fs header).startLo s ∧
      1 = (w.node fs header).len s) := fun hc => hne hc.2.symm
  have hentry := ExtNode.cutEntry_entry hkeep s
  rw [if_pos rfl] at hentry
  have hlen := h.len_pos
  have hend := h.blk_add_len_le
  have hlenlt := (w.node fs header).len_lt s
  obtain ⟨hdepth, hecount⟩ := ExtNode.cutEntry_header h.pos h.le h.ecount_lt
    ((w.node fs header).startLo s) 1
  rw [if_neg hkeep] at hecount
  have hb : (cutEntry (w.node fs header) s ((w.node fs header).startLo s) 1).blk s =
      (w.node fs header).blk s + 1 := by
    refine (congrArg Ext4Extent.blk hentry).trans ?_
    unfold cutExtent ExtNode.entry
    rw [if_pos rfl]
    dsimp only
    unfold u32
    omega
  have hl : (cutEntry (w.node fs header) s ((w.node fs header).startLo s) 1).len s =
      (w.node fs header).len s - 1 := by
    refine (congrArg Ext4Extent.len hentry).trans ?_
    unfold cutExtent ExtNode.entry
    rw [if_pos rfl]
    dsimp only
    omega
  exact ⟨_, (h.maps_iff hr.node hdepth).2
    (.inl ⟨s, h.pos, by rw [hecount]; exact h.le, ⟨by omega, by omega⟩, rfl⟩)⟩

/-- The block of an entry that goes is to be freed. -/
theorem released (hr : CutAtStart fs w w' length header s)
    (h : Found fs read w header s range lo hi) (hone : (w.node fs header).len s = 1) :
    Released fs w w' ((w.node fs header).start s : ℕ) := by
  have hstart := h.maps 0 h.len_pos
  rw [add_zero, add_zero] at hstart
  refine .inl ⟨_, rfl, ⟨_, hstart⟩, fun l hl => ?_⟩
  have heq := h.sound.inj _ _ _ (h.maps_of_removed (hr.node_removed hone) hl) hstart
  rw [heq] at hl
  exact hr.dropped h ⟨_, hl⟩

/-- When the call is right, the block it took was the last one of the file. -/
theorem cutsLastBlock (hr : CutAtStart fs w w' length header s)
    (h : Found fs read w header s range lo hi)
    (hle : (w.node fs header).blk s ≤ fs.lblkno length) (htrunc : ExtTruncated fs w w' length) :
    CutsLastBlock fs w length header s := by
  -- the block that goes is behind the new end, so it is the first block there
  have hcov : fs.coveredBlocks length ≤ (w.node fs header).blk s := by
    by_contra hlt
    exact h.not_truncated_of_drop 0 h.len_pos (by omega) (hr.node_off h) htrunc
  obtain ⟨hmod, hblk⟩ : length % fs.bsize = 0 ∧
      (w.node fs header).blk s = fs.lblkno length := by
    rcases coveredBlocks_cases fs length with hc | hc
    · exact ⟨hc.1, by omega⟩
    · omega
  have hone : (w.node fs header).len s = 1 := by
    by_contra hne
    exact htrunc.gone _ (by omega) (hr.covered_next h hne)
  obtain ⟨es, hes, hbno⟩ := hr.freed
  obtain ⟨es', hes', -, hiff⟩ := htrunc.freed
  obtain rfl : es = es' := List.append_cancel_left (hes.symm.trans hes')
  rw [hbno] at hiff
  have hlow := List.mem_singleton.1 ((hiff _).2 (hr.released h hone))
  refine ⟨hmod, hblk, hone, ?_, fun l hl => ?_, ?_⟩
  · unfold ExtNode.start at hlow
    omega
  · rintro ⟨p, hp⟩
    refine htrunc.gone l (by omega) ⟨p, h.maps_of_other hr.node hp ?_⟩
    intro hc
    have hup := hc.2
    omega
  · cases header with
    | none => exact .inl rfl
    | some b =>
      right
      by_contra hlt
      have hle := h.le
      have hpos := h.pos
      -- the leaf became empty and was not freed
      have hecount := (ExtNode.removed_header h.pos h.le h.ecount_lt).1
      have hemptied : Released fs w w' (b : ℕ) := by
        refine .inr ⟨b, rfl, h.leaf.treeLeaf, by omega, ?_⟩
        rw [hr.node_removed hone, if_pos rfl, hecount]
        omega
      have hsame := List.mem_singleton.1 ((hiff _).2 hemptied)
      have hb : b = (w.node fs (some b)).start s := by
        rw [← hsame] at hlow
        exact_mod_cast hlow.symm
      have hstart := h.maps 0 h.len_pos
      rw [add_zero, add_zero, ← hb] at hstart
      exact h.sound.disjoint b _ h.leaf.treeLeaf hstart

/-- The call is right when the block it takes is the last one of the file. -/
theorem truncated (hr : CutAtStart fs w w' length header s)
    (h : Found fs read w header s range lo hi) (hc : CutsLastBlock fs w length header s) :
    ExtTruncated fs w w' length := by
  have hcov : fs.coveredBlocks length = fs.lblkno length := by
    rcases coveredBlocks_cases fs length with hcc | hcc
    · exact hcc.2
    · exact absurd hc.aligned hcc.1
  have hblk := hc.blk
  have hone := hc.len
  have hback {l p : ℕ} (hp : w'.ExtMaps fs l p) : w.ExtMaps fs l p :=
    h.maps_of_removed (hr.node_removed hone) hp
  -- all that is no longer mapped is the block of the entry
  have hother {l p : ℕ} (hp : w.ExtMaps fs l p) (hne : l ≠ (w.node fs header).blk s) :
      w'.ExtMaps fs l p := by
    refine h.maps_of_other hr.node hp ?_
    intro hcv
    have hlo := hcv.1
    have hup := hcv.2
    omega
  have hlow : (w.node fs header).start s = (w.node fs header).startLo s := by
    unfold ExtNode.start
    rw [hc.startHi, Nat.zero_mul, add_zero]
  obtain ⟨es, hes, hbno⟩ := hr.freed
  refine ⟨fun l p hl => ⟨hback, fun hp => hother hp (by omega)⟩, fun l hl => ?_, es, hes,
    by rw [hbno]; exact List.nodup_singleton _, fun bno => ?_⟩
  · rintro ⟨p, hp⟩
    by_cases heq : l = (w.node fs header).blk s
    · rw [heq] at hp
      exact hr.dropped h ⟨p, hp⟩
    · exact hc.last l (by omega) ⟨p, hback hp⟩
  · rw [hbno, List.mem_singleton]
    constructor
    · rintro rfl
      rw [← hlow]
      exact hr.released h hone
    · rintro (⟨p, rfl, ⟨l, hp⟩, hno⟩ | ⟨b, -, -, hne, hzero⟩)
      · by_cases heq : l = (w.node fs header).blk s
        · -- the entry is the only one that can have mapped it
          have hrange := h.in_range 0 h.len_pos
          rw [heq] at hp
          obtain ⟨i, h1, hi', hcv, rfl⟩ := h.leaf.covers_of_maps h.wf hrange.1 hrange.2 hp
          obtain rfl := h.ext.covers_unique h1 hi' h.pos h.le hcv ⟨le_rfl, by omega⟩
          rw [hlow, Nat.add_zero, Nat.sub_self, Nat.add_zero]
        · exact absurd (hother hp heq) (hno l)
      · rw [hr.node_removed hone] at hzero
        split at hzero
        · next heq =>
          subst heq
          rw [(ExtNode.removed_header h.pos h.le h.ecount_lt).1] at hzero
          obtain hroot | htwo := hc.leaf
          · exact absurd hroot nofun
          · omega
        · exact absurd hzero hne

end CutAtStart

/-- The header taken for an extent: what the removal leaves of it is a header with as many entries. -/
theorem cutEntry_front {n : ExtNode} {ln : ℕ} (st : ℕ) (hmagic : n.magic = EXT4_EXT_MAGIC)
    (hword : n 0 < 2 ^ 32) (hroom : 2 ≤ n.max) (hln : ln ≤ 1) :
    (cutEntry n 0 st ln).ecount = n.ecount ∧ (cutEntry n 0 st ln).depth = n.depth ∧
      ∀ j, 1 ≤ j → (cutEntry n 0 st ln).entry j = n.entry j := by
  have hkeep : ¬ (st = n.startLo 0 ∧ ln = n.len 0) := by
    rintro ⟨-, hlen⟩
    have hmax : n.len 0 = n.max := rfl
    omega
  have hentry := ExtNode.cutEntry_entry hkeep
  have hself := hentry 0
  rw [if_pos rfl] at hself
  refine ⟨?_, ?_, fun j hj => (hentry j).trans (if_neg (by omega))⟩
  · have hblk : (cutEntry n 0 st ln).blk 0 = (cutExtent (n.entry 0) st ln).blk :=
      congrArg Ext4Extent.blk hself
    have hfirst : (cutExtent (n.entry 0) st ln).blk = n 0 ∨
        (cutExtent (n.entry 0) st ln).blk = u32 ((n 0 : ℤ) + ln) := by
      unfold cutExtent
      split
      · exact .inr rfl
      · split <;> exact .inl rfl
    unfold ExtNode.magic EXT4_EXT_MAGIC at hmagic
    unfold ExtNode.blk at hblk
    unfold ExtNode.ecount
    rw [Nat.mul_zero] at hblk
    unfold u32 at hfirst
    omega
  · have hhi : (cutEntry n 0 st ln).startHi 0 = (cutExtent (n.entry 0) st ln).startHi :=
      congrArg Ext4Extent.startHi hself
    refine hhi.trans ?_
    unfold cutExtent
    split
    · rfl
    · split <;> rfl

/-- The search fell off the front of the leaf: the removal works on the header, and what was mapped
behind the new end still is. -/
theorem not_truncated_of_front (h : Found fs read w header 1 range lo hi)
    (hroom : 2 ≤ (w.node fs header).max) (hfront : fs.lblkno length < (w.node fs header).blk 1)
    (hr : Removed fs w w' length header 0) : ¬ ExtTruncated fs w w' length := by
  intro htrunc
  obtain ⟨hecount, hdepth, hentry⟩ := cutEntry_front
    (rmStart fs (w.node fs header) 0 (fs.lblkno length)) (h.leaf.wf h.wf).header.magic
    (h.sound.words _ _) hroom (rmLen_le fs (w.node fs header) 0 (fs.lblkno length))
  have hlen := h.len_pos
  have hcov := coveredBlocks_cases fs length
  refine htrunc.gone ((w.node fs header).blk 1) (by omega) ⟨_, (h.maps_iff hr.node hdepth).2
    (.inl ⟨1, le_rfl, by rw [hecount]; exact h.le, ?_, rfl⟩)⟩
  exact (ExtNode.covers_entry (hentry 1 le_rfl)).2 ⟨le_rfl, by omega⟩

end Cases

/-! ### The whole call -/

/-- When `ext2_ext_truncate` cuts the tree as its caller relies on: the search comes back with an entry,
and either the block it takes was the last one of the file, or there was nothing behind the new end and it
takes nothing; or it comes back without one, and there was nothing behind the new end. -/
def TruncFits (fs : MExt2fs) (env : ExtTruncEnv) (w : World) (length : ℕ) : Prop :=
  (∃ header s, ext4ExtFindExtent fs env.read w (fs.lblkno length) = some ⟨header, some s⟩ ∧
    w.ExtLeaf fs header ∧ 1 ≤ s ∧
      (CutsLastBlock fs w length header s ∨ CutsNothing fs w length header s)) ∨
  (∀ header s, ext4ExtFindExtent fs env.read w (fs.lblkno length) ≠ some ⟨header, some s⟩) ∧
    ∀ l, fs.coveredBlocks length ≤ l → ¬w.ExtCovered fs l

theorem find_slot {lbn : ℕ}
    (hfind : ext4ExtFindExtent fs env.read w lbn = some ⟨header, some s⟩) :
    (w.node fs header).ecount ≠ 0 ∧ s = (w.node fs header).binsearch lbn := by
  unfold ext4ExtFindExtent at hfind
  simp only at hfind
  split at hfind
  · simp at hfind
  · split at hfind
    · simp at hfind
    · simp only [Option.some.injEq, ExtPath.mk.injEq] at hfind
      obtain ⟨rfl, hext⟩ := hfind
      split at hext
      · simp at hext
      · next hne => exact ⟨hne, (Option.some.inj hext).symm⟩

/-- Without an entry the call gives up its path at once, and the size is not set behind that. -/
theorem extTruncate_null (hlen : length < w.ip.size)
    (hnull : ∀ header s, ext4ExtFindExtent fs env.read w (fs.lblkno length) ≠ some ⟨header, some s⟩) :
    ext2ExtTruncate fs env length w =
      .dropRefs (searchedPath fs env.read w (fs.lblkno length)) w (none, w) := by
  unfold ext2ExtTruncate
  rw [if_neg (not_le.2 hlen)]
  dsimp only
  split
  · next header s hfind => exact absurd hfind (hnull header s)
  · rfl

variable (env) in
/-- Every call that shortens the file comes to `ext4_ext_drop_refs`, with the size as it was. -/
theorem extTruncate_drops (hlen : length < w.ip.size) :
    ∃ now r, ext2ExtTruncate fs env length w =
        .dropRefs (searchedPath fs env.read w (fs.lblkno length)) now r ∧ now.ip.size = w.ip.size := by
  by_cases hnull : ∀ header s,
      ext4ExtFindExtent fs env.read w (fs.lblkno length) ≠ some ⟨header, some s⟩
  · exact ⟨w, _, extTruncate_null hlen hnull, rfl⟩
  · push Not at hnull
    obtain ⟨header, s, hfind⟩ := hnull
    obtain ⟨now, hrun, hr⟩ := extTruncate_run env hlen hfind
    exact ⟨now, _, hrun, hr.size⟩

/-- A slot of a leaf of the tree that the search comes back with. -/
theorem found_of_leaf {range : ℕ} (hwf : WfTree fs env.read w (w.node fs none).depth none 0 range)
    (hsound : w.ExtSound fs) (hleaf : w.ExtLeaf fs header) (hs : 1 ≤ s)
    (he : s ≤ (w.node fs header).ecount) : ∃ lo hi, Found fs env.read w header s range lo hi := by
  obtain ⟨lo, hi, hin⟩ := hleaf.leafIn 0 range
  exact ⟨lo, hi, hsound, hwf, hin, hs, he⟩

/-- What the search says about the slot that it comes back with, in a leaf of the tree. -/
theorem slot_spec {range : ℕ} (hwf : WfTree fs env.read w (w.node fs none).depth none 0 range)
    (hleaf : w.ExtLeaf fs header)
    (hfind : ext4ExtFindExtent fs env.read w (fs.lblkno length) = some ⟨header, some s⟩) :
    s ≤ (w.node fs header).ecount ∧ (1 ≤ s → (w.node fs header).blk s ≤ fs.lblkno length) ∧
      ∀ j, s < j → j ≤ (w.node fs header).ecount → fs.lblkno length < (w.node fs header).blk j := by
  obtain ⟨lo, hi, hin⟩ := hleaf.leafIn 0 range
  have hspec := (hin.wf hwf).binsearch_spec (fs.lblkno length)
  rwa [← (find_slot hfind).2] at hspec

/-- **A removal that fits** cuts the tree. -/
theorem Removed.truncated {range : ℕ} {now : World} (hr : Removed fs w now length header s)
    (hwf : WfTree fs env.read w (w.node fs none).depth none 0 range) (hsound : w.ExtSound fs)
    (hleaf : w.ExtLeaf fs header)
    (hfind : ext4ExtFindExtent fs env.read w (fs.lblkno length) = some ⟨header, some s⟩) (hs : 1 ≤ s)
    (hcase : CutsLastBlock fs w length header s ∨ CutsNothing fs w length header s) :
    ExtTruncated fs w now length := by
  obtain ⟨lo, hi, h⟩ := found_of_leaf hwf hsound hleaf hs (slot_spec hwf hleaf hfind).1
  rcases hcase with hlast | hnothing
  · have houtside : ¬ (w.node fs header).blk s * fs.bsize < fs.lblkno length := by
      rw [hlast.blk]
      exact not_lt.2 (Nat.le_mul_of_pos_right _ fs.bsize_pos)
    exact (hr.outside hsound houtside h.len_pos).truncated h hlast
  · exact (inside_iff h hr hnothing.behind).2 hnothing

/-- **Only a removal that fits** does, in a leaf with room for more than one entry. -/
theorem Removed.fits {range : ℕ} {now : World} (hr : Removed fs w now length header s)
    (hwf : WfTree fs env.read w (w.node fs none).depth none 0 range) (hsound : w.ExtSound fs)
    (hleaf : w.ExtLeaf fs header) (hroom : 2 ≤ (w.node fs header).max)
    (hfind : ext4ExtFindExtent fs env.read w (fs.lblkno length) = some ⟨header, some s⟩)
    (htrunc : ExtTruncated fs w now length) :
    1 ≤ s ∧ (CutsLastBlock fs w length header s ∨ CutsNothing fs w length header s) := by
  obtain ⟨hne, -⟩ := find_slot hfind
  obtain ⟨hle, hfirst, hbehind⟩ := slot_spec hwf hleaf hfind
  rcases Nat.eq_zero_or_pos s with rfl | hs
  · -- the front of the leaf
    obtain ⟨lo, hi, h⟩ := found_of_leaf hwf hsound hleaf le_rfl (Nat.pos_of_ne_zero hne)
    exact absurd htrunc (not_truncated_of_front h hroom
      (hbehind 1 Nat.one_pos (Nat.pos_of_ne_zero hne)) hr)
  · obtain ⟨lo, hi, h⟩ := found_of_leaf hwf hsound hleaf hs hle
    refine ⟨hs, ?_⟩
    by_cases hinside : (w.node fs header).blk s * fs.bsize < fs.lblkno length
    · exact .inr ((inside_iff h hr hinside).1 htrunc)
    · exact .inl ((hr.outside hsound hinside h.len_pos).cutsLastBlock h (hfirst hs) htrunc)

/-- **The truncation of an extent-mapped file.**  A call that shortens the file gives up its path and does
not come back, and the size is not yet set then.  In the state it does so in, the tree is cut as the caller
relies on when `TruncFits` says so, and in no other case in which the search ends at a leaf of the tree
with room for more than one entry. -/
theorem extTruncate_correct (hwf : w.ExtWf fs env.read) (hsound : w.ExtSound fs)
    (hlen : length < w.ip.size) :
    ∃ path now r, ext2ExtTruncate fs env length w = .dropRefs path now r ∧
      (∀ behind, (ext2ExtTruncate fs env length w).value behind = Part.none) ∧
      now.ip.size = w.ip.size ∧
      (TruncFits fs env w length → ExtTruncated fs w now length) ∧
      ((∀ path, ext4ExtFindExtent fs env.read w (fs.lblkno length) = some path →
          w.ExtLeaf fs path.header ∧ 2 ≤ (w.node fs path.header).max) →
        ExtTruncated fs w now length → TruncFits fs env w length) := by
  obtain ⟨range, hwf⟩ := hwf
  have hnever : ∀ behind, (ext2ExtTruncate fs env length w).value behind = Part.none := by
    obtain ⟨now, r, hrun, -⟩ := extTruncate_drops env hlen
    rw [hrun]
    exact fun behind => PathCall.value_dropRefs _ _ _ behind
  by_cases hnull : ∀ header s,
      ext4ExtFindExtent fs env.read w (fs.lblkno length) ≠ some ⟨header, some s⟩
  · -- no entry: nothing is done
    refine ⟨_, w, _, extTruncate_null hlen hnull, hnever, rfl, ?_, fun _ htrunc => ?_⟩
    · rintro (⟨header, s, hfind, -⟩ | ⟨-, hlast⟩)
      · exact absurd hfind (hnull header s)
      · exact truncated_of_same rfl rfl hlast
    · exact .inr ⟨hnull, htrunc.gone⟩
  · push Not at hnull
    obtain ⟨header, s, hfind⟩ := hnull
    obtain ⟨now, hrun, hr⟩ := extTruncate_run env hlen hfind
    refine ⟨_, now, _, hrun, hnever, hr.size, ?_, fun hleaves htrunc => ?_⟩
    · rintro (⟨header', s', hfind', hleaf, hs, hcase⟩ | ⟨hno, -⟩)
      · obtain ⟨rfl, rfl⟩ : header = header' ∧ s = s' := by
          simpa using hfind.symm.trans hfind'
        exact hr.truncated hwf hsound hleaf hfind hs hcase
      · exact absurd hfind (hno header s)
    · obtain ⟨hleaf, hroom⟩ := hleaves _ hfind
      obtain ⟨hs, hcase⟩ := hr.fits hwf hsound hleaf hroom hfind htrunc
      exact .inl ⟨header, s, hfind, hleaf, hs, hcase⟩

end Truncate

/-! ### Two files -/

/-- The words of a file given by its words. -/
theorem World.ofWords_lt {words : List ℕ} {size : ℕ} (h : ∀ v ∈ words, v < 2 ^ 32) (ref : NodeRef)
    (x : ℕ) : (World.ofWords words size).node volume4k ref x < 2 ^ 32 := by
  have hget (i : ℕ) : words.getD i 0 < 2 ^ 32 := by
    rw [List.getD_eq_getElem?_getD]
    cases hi : words[i]? with
    | none => decide
    | some v => exact h v (List.mem_of_getElem? hi)
  cases ref with
  | none =>
    unfold World.node Inode.slot
    dsimp only
    split
    · exact hget _
    · exact hget _
  | some b => exact Nat.two_pow_pos 32

/-- A file with the logical blocks 0 to 7 at block 100 and the logical block 8 at block 200. -/
def twoExtents : World := .ofWords [EXT4_EXT_MAGIC + 2 * 2 ^ 16, 4, 0, 0, 8, 100, 8, 1, 200] 36864

theorem twoExtents_ecount : (twoExtents.node volume4k none).ecount = 2 := by decide

theorem twoExtents_wf : twoExtents.ExtWf volume4k fun _ => true := by
  refine ⟨9, (⟨by decide, by decide, by decide⟩ : ExtNode.Header _ 0), ?_⟩
  refine ⟨fun i h1 hi => ?_, fun i h1 hi => ?_, fun i h1 hi => Nat.zero_le _, fun i h1 hi => ?_,
    fun i j h1 hij hj => ?_⟩
  · rw [twoExtents_ecount] at hi
    interval_cases i <;> decide
  · rw [twoExtents_ecount] at hi
    interval_cases i <;> decide
  · rw [twoExtents_ecount] at hi
    interval_cases i <;> decide
  · rw [twoExtents_ecount] at hj
    obtain ⟨rfl, rfl⟩ : i = 1 ∧ j = 2 := by omega
    decide

/-- The two extents of the file. -/
theorem twoExtents_maps {l p : ℕ} (h : twoExtents.ExtMaps volume4k l p) :
    l < 8 ∧ p = 100 + l ∨ l = 8 ∧ p = 200 := by
  obtain ⟨i, h1, hi, hc, rfl⟩ := h
  rw [twoExtents_ecount] at hi
  have h1 : ((twoExtents.node volume4k none).blk 1, (twoExtents.node volume4k none).len 1,
    (twoExtents.node volume4k none).start 1) = (0, 8, 100) := by decide
  have h2 : ((twoExtents.node volume4k none).blk 2, (twoExtents.node volume4k none).len 2,
    (twoExtents.node volume4k none).start 2) = (8, 1, 200) := by decide
  simp only [Prod.mk.injEq] at h1 h2
  unfold ExtNode.Covers at hc
  interval_cases i
  · left
    omega
  · right
    omega

theorem twoExtents_sound : twoExtents.ExtSound volume4k where
  words := World.ofWords_lt (by decide)
  lbn_lt := by
    rintro l ⟨p, hp⟩
    have h := twoExtents_maps hp
    omega
  inj l l' p hp hp' := by
    have h := twoExtents_maps hp
    have h' := twoExtents_maps hp'
    omega
  disjoint b l hleaf := absurd (show (some b : NodeRef) = none from hleaf) nofun

/-- Nothing fails. -/
def goodExtTruncEnv : ExtTruncEnv where
  async := false
  inodeRead := true
  inodeWrite := true
  read := fun _ => true
  bitmapOk := fun _ => true
  invalidate := none

/-- The last block of the file is an extent of its own: it goes. -/
theorem twoExtents_truncated : ∃ path now r,
    ext2ExtTruncate volume4k goodExtTruncEnv 32768 twoExtents = .dropRefs path now r ∧
      ExtTruncated volume4k twoExtents now 32768 := by
  obtain ⟨path, now, r, hrun, -, -, hfits, -⟩ :=
    @extTruncate_correct volume4k goodExtTruncEnv twoExtents 32768 twoExtents_wf twoExtents_sound
      (by decide)
  refine ⟨path, now, r, hrun, hfits (.inl ⟨none, 2, by decide, rfl, by decide, .inl
    { aligned := by decide
      blk := by decide
      len := by decide
      startHi := by decide
      last := ?_
      leaf := .inl rfl }⟩)⟩
  rintro l hl ⟨p, hp⟩
  have h := twoExtents_maps hp
  have hlbn : volume4k.lblkno 32768 = 8 := by decide
  omega

/-- The state in which a file of eight blocks in one extent is given up when it is to be cut to its first
block. -/
def oneExtentCut : World :=
  (ext4ExtRmExtent volume4k goodExtTruncEnv.bitmapOk ⟨none, some 1⟩ 1 1 oneExtent).2

/-- A file of eight blocks in one extent is to be cut to its first block: it is the first block that goes,
and then the call does not come back. -/
theorem oneExtent_loses_first_block :
    (∃ path r, ext2ExtTruncate volume4k goodExtTruncEnv 4096 oneExtent = .dropRefs path oneExtentCut r) ∧
      (ext2ExtTruncate volume4k goodExtTruncEnv 4096 oneExtent).value (fun _ => newPath) = Part.none ∧
      oneExtentCut.freed.map FreeEvent.bno = [100] ∧
      ¬ ExtTruncated volume4k oneExtent oneExtentCut 4096 := by
  have hrun : ext2ExtTruncate volume4k goodExtTruncEnv 4096 oneExtent =
      .dropRefs (searchedPath volume4k goodExtTruncEnv.read oneExtent 1) oneExtentCut
        (none, (oneExtentCut.setSize 4096).mark) := by
    have hfind : ext4ExtFindExtent volume4k goodExtTruncEnv.read oneExtent (volume4k.lblkno 4096) =
        some ⟨none, some 1⟩ := by decide
    have hlbn : volume4k.lblkno 4096 = 1 := by decide
    rw [hlbn] at hfind
    unfold ext2ExtTruncate
    rw [if_neg (by decide)]
    simp only [truncLen_eq, hlbn, hfind]
    rfl
  refine ⟨⟨_, _, hrun⟩, ?_, by decide +kernel, fun h => ?_⟩
  · rw [hrun]
    exact PathCall.value_dropRefs _ _ _ _
  · obtain ⟨i, h1, hi, hc, -⟩ : oneExtentCut.ExtMaps volume4k 0 100 :=
      (h.kept 0 100 (by decide)).2 ⟨1, by decide, by decide, by decide, by decide⟩
    have hcount : (oneExtentCut.node volume4k none).ecount = 1 := by decide +kernel
    obtain rfl : i = 1 := by omega
    revert hc
    decide +kernel

end Ext2fs
