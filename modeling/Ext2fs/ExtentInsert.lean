import Ext2fs.ExtentBalloc
import Ext2fs.ExtentLookup

/-!
# What `ext2_ext_balloc` and the insertion do to an extent tree

* **`ext2BallocExtents_never`** — `ext2_balloc` never comes back with a block that has a place on the disk;
* `ext2ExtBalloc_covered_iff` — what it has decided when it gives up its path is right only up to the
  last whole block of the file, and only where the wrong unit of the read does no harm;
* **`not_inserted`** — the insertion into a leaf with room never leaves the tree the caller wants;
* **`grown_iff`** — the growth of a full root leaf keeps the tree only by failing.
-/

namespace Ext2fs

/-! ### A block that is there -/

/-- The block of an extent was found in place: its contents come back and nothing has changed. -/
structure FoundInPlace (fs : MExt2fs) (w : World) (p : ℕ) (r : Except Errno ExtBuf × World) :
    Prop where
  buffer : r.1 = .ok (.read (some (fs.fsbtodb p)))
  tree : r.2.node fs = w.node fs
  avail : r.2.avail = w.avail
  blocks : r.2.ip.blocks = w.ip.blocks

section Covered

variable {fs : MExt2fs} {env : ExtEnv} {clrbuf : Bool} {w : World} {p : ℕ}

/-- A new block never comes with the contents of an old one. -/
theorem extBallocNew_not_read (lbn : ℕ) (path : Option ExtPath) (dbn : Option ℤ) :
    (extBallocNew fs env clrbuf lbn path w).1 ≠ .ok (.read dbn) := by
  unfold extBallocNew
  split
  · exact nofun
  · split
    · exact nofun
    · split
      · exact nofun
      · split
        · exact nofun
        · exact nofun

/-- A read through the vnode of the file is a read of the block `ext4_bmapext` names. -/
theorem metaBread_eq_iff (hread : env.read (fs.fsbtodb p) = true) (l : ℕ) :
    metaBread fs env.read w l = .ok (some (fs.fsbtodb p)) ↔
      ext4Bmapext fs env.read w l = .ok (fs.fsbtodb p) := by
  have hpos : ¬ fs.fsbtodb p < 0 := by
    unfold MExt2fs.fsbtodb
    exact not_lt.2 (by positivity)
  unfold metaBread
  cases hb : ext4Bmapext fs env.read w l with
  | error e => exact iff_of_false nofun nofun
  | ok bn =>
    simp only [Except.ok.injEq]
    constructor
    · intro h
      split at h
      · simp at h
      · split at h
        · simpa using h
        · simp at h
    · rintro rfl
      rw [if_neg hpos, if_pos hread]

/-- `ext2_ext_balloc` for a block that is covered by an extent: the low word of its physical number is
taken for a byte of the file. -/
theorem ext2ExtBalloc_of_maps (clrbuf : Bool) (lbn : ℕ) (hwf : w.ExtWf fs env.read) (hm : w.ExtMaps fs lbn p) :
    ∃ leaf i, ext4ExtFindExtent fs env.read w lbn = some ⟨leaf, some i⟩ ∧
      u32 (((w.node fs leaf).startLo i : ℤ) + u32 ((lbn : ℤ) - (w.node fs leaf).blk i)) = u32 p ∧
      ext2ExtBalloc fs env clrbuf lbn w =
        if u32 p ≠ 0 ∧ (lbn + 1) * fs.bsize ≤ w.ip.size then
          ((metaBread fs env.read w (fs.lblkno (u32 p))).map ExtBuf.read, w)
        else extBallocNew fs env clrbuf lbn (some ⟨leaf, some i⟩) w := by
  obtain ⟨leaf, i, hfind, hc, hp⟩ := find_covers hwf hm
  have hphys : u32 (((w.node fs leaf).startLo i : ℤ) + u32 ((lbn : ℤ) - (w.node fs leaf).blk i)) =
      u32 p := by
    have hblk := hc.1
    rw [hp]
    unfold ExtNode.start u32
    omega
  refine ⟨leaf, i, hfind, hphys, ?_⟩
  unfold ext2ExtBalloc
  simp only [hfind, hphys, hc, true_and]

/-- For a block that is covered by an extent the right buffer has been chosen, and nothing allocated,
exactly if it is a whole block of the file, its number has a non-zero low word, and the logical block that
this number is taken for resolves to the same device block. -/
theorem ext2ExtBalloc_covered_iff (lbn : ℕ) (hwf : w.ExtWf fs env.read) (hm : w.ExtMaps fs lbn p)
    (hread : env.read (fs.fsbtodb p) = true) :
    FoundInPlace fs w p (ext2BallocExtents fs env clrbuf lbn w).decided ↔
      (lbn + 1) * fs.bsize ≤ w.ip.size ∧ u32 p ≠ 0 ∧
        ext4Bmapext fs env.read w (fs.lblkno (u32 p)) = .ok (fs.fsbtodb p) := by
  obtain ⟨leaf, i, -, -, hrun⟩ := ext2ExtBalloc_of_maps clrbuf lbn hwf hm
  have hdecided : (ext2BallocExtents fs env clrbuf lbn w).decided = ext2ExtBalloc fs env clrbuf lbn w := by
    unfold ext2BallocExtents
    rw [if_neg (by omega), Int.toNat_natCast]
    rfl
  rw [hdecided, hrun]
  constructor
  · intro h
    split at h
    · next hfast =>
      refine ⟨hfast.2, hfast.1, (metaBread_eq_iff hread _).1 ?_⟩
      have hbuf := h.buffer
      cases hb : metaBread fs env.read w (fs.lblkno (u32 p)) with
      | error e => simp [hb, Except.map] at hbuf
      | ok dbn => simpa [hb, Except.map] using hbuf
    · exact absurd h.buffer (extBallocNew_not_read _ _ _)
  · rintro ⟨hsize, hphys, hbmap⟩
    rw [if_pos ⟨hphys, hsize⟩, (metaBread_eq_iff hread _).2 hbmap]
    exact ⟨rfl, rfl, rfl, rfl⟩

/-- **`ext2_balloc` of an extent-mapped inode never comes back**, with whatever it has decided: a search of
any tree for any block ends in `ext4_ext_drop_refs`.  So no block is found in place. -/
theorem ext2BallocExtents_never (fs : MExt2fs) (env : ExtEnv) (clrbuf : Bool) (w : World) (lbn p : ℕ)
    (behind : ℕ → PathElem) :
    (ext2BallocExtents fs env clrbuf lbn w).value behind = Part.none ∧
      ¬∃ r ∈ (ext2BallocExtents fs env clrbuf lbn w).value behind, FoundInPlace fs w p r := by
  have hnone : (ext2BallocExtents fs env clrbuf lbn w).value behind = Part.none := by
    unfold ext2BallocExtents
    rw [if_neg (by omega)]
    exact PathCall.value_dropRefs _ _ _ _
  refine ⟨hnone, ?_⟩
  rw [hnone]
  rintro ⟨r, hr, -⟩
  exact Part.notMem_none r hr

end Covered

/-- Everything the kernel is asked for succeeds; the blocks 500, 600 and 700 are taken. -/
def goodExtEnv : ExtEnv where
  read := fun _ => true
  bitmapOk := fun _ => true
  dataAlloc := some 500
  old := ⟨some 600, true, true⟩
  new := ⟨some 700, true, true⟩
  oldGet := true
  newGet := true
  oldWrite := true
  newWrite := true
  dataGet := true

theorem oneExtent_maps {lbn : ℕ} (h : lbn < 8) : oneExtent.ExtMaps volume4k lbn (100 + lbn) := by
  refine ⟨1, le_rfl, by decide, ⟨Nat.zero_le _, ?_⟩, rfl⟩
  have hlen : (oneExtent.node volume4k none).blk 1 + (oneExtent.node volume4k none).len 1 = 8 := by
    decide
  omega

/-- The first block of the file: block 100 is taken for a byte of the logical block 0. -/
theorem first_block_decided : FoundInPlace volume4k oneExtent 100
    (ext2BallocExtents volume4k goodExtEnv false 0 oneExtent).decided :=
  (ext2ExtBalloc_covered_iff 0 oneExtent_wf (oneExtent_maps (by decide)) rfl).2
    ⟨by decide, by decide, rfl⟩

/-- The fourth block of the file, block 103: it is taken for a byte of the logical block 0 as well, so that
block 100 has been read when the call gives up its path; and it does not come back. -/
theorem not_found_fourth_block :
    (ext2BallocExtents volume4k goodExtEnv false 3 oneExtent).decided.1 = .ok (.read (some 800)) ∧
      ¬FoundInPlace volume4k oneExtent 103
        (ext2BallocExtents volume4k goodExtEnv false 3 oneExtent).decided ∧
      ¬∃ r ∈ (ext2BallocExtents volume4k goodExtEnv false 3 oneExtent).value fun _ => newPath,
        FoundInPlace volume4k oneExtent 103 r := by
  have hread : (ext2BallocExtents volume4k goodExtEnv false 3 oneExtent).decided.1 =
      .ok (.read (some 800)) := rfl
  refine ⟨hread, fun h => ?_, fun ⟨r, hr, _⟩ => ?_⟩
  · have hbuf := h.buffer
    rw [hread] at hbuf
    injection hbuf with hbuf
    injection hbuf with hbuf
    exact absurd hbuf (by decide)
  · have hnone : (ext2BallocExtents volume4k goodExtEnv false 3 oneExtent).value (fun _ => newPath) =
        Part.none := PathCall.value_dropRefs _ _ _ _
    rw [hnone] at hr
    exact Part.notMem_none r hr

/-! ### An extent into a leaf with room -/

/-- What the caller of `ext4_ext_insert_extent` wants: the tree is well formed, the leaf has one more
entry, and the new block is all that is mapped besides what was. -/
structure Inserted (fs : MExt2fs) (read : ℤ → Bool) (w w' : World) (header : NodeRef) (lbn b : ℕ) :
    Prop where
  wf : w'.ExtWf fs read
  ecount : (w'.node fs header).ecount = (w.node fs header).ecount + 1
  ecount_le : (w'.node fs header).ecount ≤ (w'.node fs header).max
  kept : ∀ l p, w.ExtMaps fs l p → w'.ExtMaps fs l p
  new : w'.ExtMaps fs lbn b
  only : ∀ l p, w'.ExtMaps fs l p → w.ExtMaps fs l p ∨ l = lbn

namespace ExtNode

/-- The shift starts at the found slot, counted from the found slot: nothing before twice its number
moves. -/
theorem shiftUp_apply {s x : ℕ} (hx : x < 6 * s) (k : ℕ) (n : ExtNode) :
    n.shiftUp s k x = n x := by
  induction k generalizing n with
  | zero => rfl
  | succ k ih =>
    rw [shiftUp]
    split
    · rw [ih]
      unfold put putWords
      rw [if_neg (by omega), if_neg (by omega), if_neg (by omega)]
    · rfl

/-- The node `ext4_ext_insert_extent` leaves: the entries are shifted, the new one is stored in the
found slot, and `eh_ecount` is one more. -/
def inserted (n : ExtNode) (s : ℕ) (newext : Ext4Extent) : ExtNode :=
  let n := (n.shiftUp s n.ecount).put s newext
  n.setEcount (n.ecount + 1)

section

variable {n : ExtNode} {s : ℕ} {e : Ext4Extent}

/-- The header after a store into an entry. -/
theorem inserted_header (hs : 1 ≤ s) (hroom : n.ecount < n.max) :
    (n.inserted s e).magic = n.magic ∧ (n.inserted s e).ecount = n.ecount + 1 ∧
      (n.inserted s e).max = n.max ∧ (n.inserted s e).depth = n.depth := by
  have hput := (header_put (n := n.shiftUp s n.ecount) (e := e) (by omega : 0 ≠ s)).trans
    (.of_words (shiftUp_apply (by omega) _ _) (shiftUp_apply (by omega) _ _))
  obtain ⟨h1, h2, h3, h4⟩ := header_setEcount (n := (n.shiftUp s n.ecount).put s e)
    (((n.shiftUp s n.ecount).put s e).ecount + 1)
  have hlt := n.max_lt
  unfold inserted
  refine ⟨h1.trans hput.magic, h2.trans ?_, h3.trans hput.max, h4.trans hput.depth⟩
  rw [hput.ecount]
  omega

/-- The entries up to the found slot: those before it stay, and the new one is in it. -/
theorem inserted_entry (hs : 1 ≤ s) (he : e.len < 2 ^ 16) {i : ℕ} (h1 : 1 ≤ i) (hi : i ≤ s) :
    (n.inserted s e).entry i = if i = s then e else n.entry i := by
  have hkeep : (n.shiftUp s n.ecount).entry i = n.entry i := by
    unfold entry blk len startHi startLo
    rw [shiftUp_apply (by omega), shiftUp_apply (by omega), shiftUp_apply (by omega)]
  unfold inserted
  rw [entry_setEcount (by omega), entry_put he, hkeep]

/-- A store into the header leaves a node with room for one entry. -/
theorem inserted_zero_max (he : e.len < 2 ^ 16) : (n.inserted 0 e).max = e.len := by
  have hmax : ((n.shiftUp 0 n.ecount).put 0 e).max = e.len := by
    have h1 : (n.shiftUp 0 n.ecount).put 0 e 1 = e.len + e.startHi * 2 ^ 16 := rfl
    unfold max
    omega
  exact (header_setEcount _).2.2.1.trans hmax

end

end ExtNode

section Insert

variable {fs : MExt2fs} {read : ℤ → Bool} {env : ExtEnv} {w : World} {lbn b : ℕ} {path : ExtPath}

/-- The nodes after an insertion into a leaf with room. -/
theorem insertExtent_node {s : ℕ} (env : ExtEnv) (newext : Ext4Extent) (hs : path.ext = some s)
    (hroom : (w.node fs path.header).ecount < (w.node fs path.header).max) (ref : NodeRef) :
    (ext4ExtInsertExtent fs env path newext w).2.node fs ref =
      if ref = path.header then (w.node fs path.header).inserted s newext else w.node fs ref := by
  unfold ext4ExtInsertExtent ExtNode.inserted
  simp only [hroom, hs, if_true, World.node_mark, World.node_addBlocks, World.node_setNode]

/-- Without an entry in the leaf nothing is stored. -/
theorem insertExtent_null {newext : Ext4Extent} (hs : path.ext = none)
    (hroom : (w.node fs path.header).ecount < (w.node fs path.header).max) (ref : NodeRef) :
    (ext4ExtInsertExtent fs env path newext w).2.node fs ref = w.node fs ref := by
  unfold ext4ExtInsertExtent
  simp only [hroom, hs, if_true]
  cases ref <;> rfl

/-- What the search returns when it ends at a leaf of the tree. -/
theorem find_path (hfind : ext4ExtFindExtent fs read w lbn = some path) :
    path.ext = if (w.node fs path.header).ecount = 0 then none
      else some ((w.node fs path.header).binsearch lbn) := by
  unfold ext4ExtFindExtent at hfind
  simp only at hfind
  split at hfind
  · simp at hfind
  · split at hfind
    · simp at hfind
    · simp only [Option.some.injEq] at hfind
      subst hfind
      rfl

/-- One leaf of a tree has changed, and the tree is well formed before and after: the leaf keeps its
range, in which nothing but its own entries is mapped. -/
theorem leaf_changed {w' : World} {leaf : NodeRef} (hwf : w.ExtWf fs read) (hwf' : w'.ExtWf fs read)
    (hleaf : w.ExtLeaf fs leaf) (hsame : ∀ ref, ref ≠ leaf → w'.node fs ref = w.node fs ref)
    (hdepth : (w'.node fs leaf).depth = (w.node fs leaf).depth) :
    ∃ lo hi, (w.node fs leaf).Extents lo hi ∧ (w'.node fs leaf).Extents lo hi ∧
      (∀ i l, 1 ≤ i → i ≤ (w.node fs leaf).ecount → (w.node fs leaf).Covers i l →
        w.ExtCovered fs l) ∧
      ∀ l, lo ≤ l → l < hi → w'.ExtCovered fs l →
        ∃ i, 1 ≤ i ∧ i ≤ (w'.node fs leaf).ecount ∧ (w'.node fs leaf).Covers i l := by
  obtain ⟨hi₁, hwf⟩ := hwf
  obtain ⟨hi₂, hwf'⟩ := hwf'
  have hroot : (w'.node fs none).depth = (w.node fs none).depth := by
    by_cases heq : none = leaf
    · rw [heq, hdepth]
    · rw [hsame none heq]
  rw [hroot] at hwf'
  replace hwf := hwf.mono (le_max_left hi₁ hi₂)
  replace hwf' := hwf'.mono (le_max_right hi₁ hi₂)
  obtain ⟨lo, hi, hin⟩ := hleaf.leafIn 0 (max hi₁ hi₂)
  have hold := hin.wf hwf
  have hin' : LeafIn fs w' (w.node fs none).depth none 0 (max hi₁ hi₂) leaf lo hi := by
    refine hin.congr hwf fun r hr => hsame r ?_
    rintro rfl
    exact hr hold.1.depth
  refine ⟨lo, hi, hold.2, (hin'.wf hwf').2, fun i l h1 he hc => ⟨_, hin.maps h1 he hc⟩, ?_⟩
  rintro l hlo hhi ⟨p, hm⟩
  rw [World.ExtMaps, hroot] at hm
  obtain ⟨i, h1, he, hc, -⟩ := hin'.covers_of_maps hwf' hlo hhi hm
  exact ⟨i, h1, he, hc⟩

/-- A store into the slot of an entry drops the first block of that entry, which comes before the
new one. -/
theorem not_inserted_entry {s : ℕ} (hwf : w.ExtWf fs read) (hleaf : w.ExtLeaf fs path.header)
    (hcov : ¬ w.ExtCovered fs lbn)
    (hroom : (w.node fs path.header).ecount < (w.node fs path.header).max)
    (hs : path.ext = some s) (hs1 : 1 ≤ s) (hse : s ≤ (w.node fs path.header).ecount)
    (hlbn : (w.node fs path.header).blk s ≤ lbn) :
    ¬ Inserted fs read w (ext4ExtInsertExtent fs env path ⟨lbn, 1, 0, b⟩ w).2 path.header lbn b := by
  intro h
  have hnode := insertExtent_node env ⟨lbn, 1, 0, b⟩ hs hroom
  set n := w.node fs path.header with hn
  have hheader := hnode path.header
  rw [if_pos rfl] at hheader
  obtain ⟨-, hecount, -, hdepth⟩ :=
    ExtNode.inserted_header (n := n) (e := ⟨lbn, 1, 0, b⟩) hs1 hroom
  obtain ⟨lo, hi, hold, hnew, hcovers, hcovered⟩ := leaf_changed hwf h.wf hleaf
    (fun ref hne => by rw [hnode, if_neg hne]) (by rw [hheader, hdepth])
  rw [hheader] at hnew hcovered
  rw [← hn] at hold hcovers
  have hone : (⟨lbn, 1, 0, b⟩ : Ext4Extent).len < 2 ^ 16 := Nat.one_lt_two_pow (by decide)
  -- the entry that is overwritten, and the one stored in its slot
  have hlen := hold.len_pos s hs1 hse
  have hc : n.Covers s (n.blk s) := ⟨le_rfl, by omega⟩
  have hold_cov := hcovers s _ hs1 hse hc
  have hne : n.blk s ≠ lbn := by
    intro heq
    rw [heq] at hold_cov
    exact hcov hold_cov
  have hslot := ExtNode.inserted_entry (n := n) (e := ⟨lbn, 1, 0, b⟩) hs1 hone hs1 le_rfl
  rw [if_pos rfl] at hslot
  have hblk : (n.inserted s ⟨lbn, 1, 0, b⟩).blk s = lbn := congrArg Ext4Extent.blk hslot
  have hlen' : (n.inserted s ⟨lbn, 1, 0, b⟩).len s = 1 := congrArg Ext4Extent.len hslot
  -- its first block has to be covered by some entry of the new leaf
  have hhi := hnew.le_hi s hs1 (by omega)
  obtain ⟨p, hmaps⟩ := hold_cov
  obtain ⟨t, ht1, hte, htlo, htup⟩ :=
    hcovered (n.blk s) (hold.lo_le s hs1 hse) (by omega) ⟨p, h.kept _ _ hmaps⟩
  rcases lt_trichotomy t s with hts | rfl | hst
  · -- an entry before it: the two were disjoint
    have hentry := ExtNode.inserted_entry (n := n) (e := ⟨lbn, 1, 0, b⟩) hs1 hone ht1 hts.le
    rw [if_neg hts.ne] at hentry
    have hb : (n.inserted s ⟨lbn, 1, 0, b⟩).blk t = n.blk t := congrArg Ext4Extent.blk hentry
    have hl : (n.inserted s ⟨lbn, 1, 0, b⟩).len t = n.len t := congrArg Ext4Extent.len hentry
    have hsorted := hold.sorted t s ht1 hts hse
    omega
  · -- the new entry: it begins behind it
    omega
  · -- an entry behind the new one
    have hsorted := hnew.sorted s t hs1 hst hte
    omega

/-- **The insertion into a leaf with room** never does what its caller wants: an empty leaf has no
slot to store to, a block before all entries overwrites the header, and any other block overwrites
the entry before it. -/
theorem not_inserted (path : ExtPath) (hwf : w.ExtWf fs read) (hcov : ¬ w.ExtCovered fs lbn)
    (hfind : ext4ExtFindExtent fs read w lbn = some path) (hleaf : w.ExtLeaf fs path.header)
    (hroom : (w.node fs path.header).ecount < (w.node fs path.header).max) :
    ¬ Inserted fs read w (ext4ExtInsertExtent fs env path ⟨lbn, 1, 0, b⟩ w).2 path.header lbn b := by
  have hpath := find_path hfind
  by_cases hempty : (w.node fs path.header).ecount = 0
  · -- the null pointer
    rw [if_pos hempty] at hpath
    intro h
    have hecount := h.ecount
    rw [insertExtent_null hpath hroom] at hecount
    omega
  · rw [if_neg hempty] at hpath
    obtain ⟨lo', hi', hin⟩ := hleaf.leafIn 0 hwf.choose
    obtain ⟨hle, hblk, -⟩ := (hin.wf hwf.choose_spec).binsearch_spec lbn
    by_cases hzero : (w.node fs path.header).binsearch lbn = 0
    · -- the header
      rw [hzero] at hpath
      intro h
      have hecount := h.ecount
      have hmax := h.ecount_le
      rw [insertExtent_node env _ hpath hroom, if_pos rfl] at hecount hmax
      rw [ExtNode.inserted_zero_max (Nat.one_lt_two_pow (by decide))] at hmax
      dsimp only at hmax
      omega
    · exact not_inserted_entry hwf hleaf hcov hroom hpath (by omega) hle (hblk (by omega))

/-- A root leaf with the logical blocks 0 to 7 and 20 to 23, and two of its four entries free. -/
def holeLeaf : World :=
  .ofWords [EXT4_EXT_MAGIC + 2 * 2 ^ 16, 4, 0, 0, 8, 100, 20, 4, 300] 98304

theorem holeLeaf_wf : holeLeaf.ExtWf volume4k fun _ => true := by
  refine ⟨24, (⟨by decide, by decide, by decide⟩ : ExtNode.Header _ 0), ?_⟩
  have hcount : (holeLeaf.node volume4k none).ecount = 2 := by decide
  refine ⟨fun i h1 hi => ?_, fun i h1 hi => ?_, fun i h1 hi => Nat.zero_le _, fun i h1 hi => ?_,
    fun i j h1 hij hj => ?_⟩
  · obtain rfl | rfl : i = 1 ∨ i = 2 := by omega
    · decide
    · decide
  · obtain rfl | rfl : i = 1 ∨ i = 2 := by omega
    · decide
    · decide
  · obtain rfl | rfl : i = 1 ∨ i = 2 := by omega
    · decide
    · decide
  · obtain ⟨rfl, rfl⟩ : i = 1 ∧ j = 2 := by omega
    decide

/-- An extent for the logical block 9, between the two, is not inserted. -/
theorem not_inserted_between :
    ¬ Inserted volume4k (fun _ => true) holeLeaf
      (ext4ExtInsertExtent volume4k goodExtEnv ⟨none, some 1⟩ ⟨9, 1, 0, 500⟩ holeLeaf).2 none 9 500 :=
  not_inserted ⟨none, some 1⟩ holeLeaf_wf
    (by
      rintro ⟨p, i, h1, hi, hc, -⟩
      have hcount : (holeLeaf.node volume4k none).ecount = 2 := by decide
      obtain rfl | rfl : i = 1 ∨ i = 2 := by omega
      · exact absurd hc (by decide)
      · exact absurd hc (by decide))
    (by decide) rfl (by decide)

/-- An extent for the logical block 9 is stored before the one for the logical blocks 0 to 7. -/
theorem append_unsorted :
    ¬ Inserted volume4k (fun _ => true) oneExtent
      (ext4ExtInsertExtent volume4k goodExtEnv ⟨none, some 1⟩ ⟨9, 1, 0, 500⟩ oneExtent).2 none 9
      500 := by
  intro h
  obtain ⟨hi, hwf⟩ := h.wf
  have hdepth : ((ext4ExtInsertExtent volume4k goodExtEnv ⟨none, some 1⟩ ⟨9, 1, 0, 500⟩
      oneExtent).2.node volume4k none).depth = 0 := by decide
  rw [hdepth] at hwf
  exact absurd (hwf.2.sorted 1 2 (by decide) (by decide) (by decide)) (by decide)

end Insert

/-! ### A full leaf -/

/-- The search for a logical block comes back with an entry that covers it and places it at `p`. -/
def Resolves (fs : MExt2fs) (read : ℤ → Bool) (w : World) (lbn p : ℕ) : Prop :=
  ∃ leaf i, ext4ExtFindExtent fs read w lbn = some ⟨leaf, some i⟩ ∧ 1 ≤ i ∧
    i ≤ (w.node fs leaf).ecount ∧ (w.node fs leaf).Covers i lbn ∧
    p = (w.node fs leaf).start i + (lbn - (w.node fs leaf).blk i)

/-- What the caller of `ext4_ext_insert_extent` wants when the leaf is full: every block still resolves,
the new one to its block, in a tree with sorted indexes and no node over its capacity. -/
structure Grown (fs : MExt2fs) (read : ℤ → Bool) (w w' : World) (lbn b : ℕ) : Prop where
  old : ∀ l p, w.ExtMaps fs l p → Resolves fs read w' l p
  new : Resolves fs read w' lbn b
  wf : w'.ExtWf fs read

/-- The allocator can hand out the block. -/
def World.CanTake (fs : MExt2fs) (w : World) (b : ℕ) : Prop :=
  w.avail b = true ∧ 0 < b ∧ b < fs.bcount ∧ b < 2 ^ 31

/-- Every step of `ext4_ext_new_block` succeeds and gives block `b`. -/
structure NewBlockEnv.Runs (env : NewBlockEnv) (b : ℕ) : Prop where
  alloc : env.alloc = some b
  getblk : env.getblk = true
  write : env.write = true

/-- Every step of the growth succeeds: the two allocations, which give two blocks, and the buffers and
the writes of both. -/
structure ExtEnv.GrowRuns (fs : MExt2fs) (env : ExtEnv) (w : World) (oldBlock newBlock : ℕ) :
    Prop where
  old : env.old.Runs oldBlock
  new : env.new.Runs newBlock
  canTake_old : w.CanTake fs oldBlock
  canTake_new : w.CanTake fs newBlock
  ne : newBlock ≠ oldBlock
  oldGet : env.oldGet = true
  newGet : env.newGet = true
  oldWrite : env.oldWrite = true
  newWrite : env.newWrite = true

section Grow

variable {fs : MExt2fs} {read : ℤ → Bool} {env : ExtEnv} {w w' : World} {lbn b : ℕ} {path : ExtPath}
  {newext : Ext4Extent}

theorem takeBlock_canTake {l : ℕ} {choice : Option ℕ} (h : w.takeBlock fs l choice = some (b, w')) :
    choice = some b ∧ w.CanTake fs b := by
  cases choice with
  | none => simp [World.takeBlock] at h
  | some c =>
    simp only [World.takeBlock] at h
    split at h
    · next hc =>
      simp only [Option.some.injEq, Prod.mk.injEq] at h
      exact ⟨by rw [h.1], h.1 ▸ hc⟩
    · simp at h

theorem takeBlock_of_canTake (h : w.CanTake fs b) (l : ℕ) :
    ∃ w', w.takeBlock fs l (some b) = some (b, w') := by
  unfold World.takeBlock
  exact ⟨_, if_pos h⟩

/-- What a new block of the tree says about the allocation, and what it leaves alone. -/
theorem newBlock_ok {nb : NewBlockEnv} {ok : ℤ → Bool} (h : ext4ExtNewBlock fs ok nb w = (.ok b, w')) :
    nb.Runs b ∧ w.CanTake fs b ∧ (w'.avail = fun x => if x = b then false else w.avail x) ∧
      w'.node fs none = w.node fs none := by
  unfold ext4ExtNewBlock at h
  cases htake : w.takeBlock fs 0 nb.alloc with
  | none => simp [htake] at h
  | some r =>
    obtain ⟨c, w₁⟩ := r
    simp only [htake] at h
    split at h
    · simp at h
    · next hget =>
      split at h
      · simp at h
      · next hwrite =>
        simp only [Prod.mk.injEq, Except.ok.injEq] at h
        obtain ⟨rfl, rfl⟩ := h
        have htook := World.takeBlock_spec htake
        obtain ⟨hc, hcan⟩ := takeBlock_canTake htake
        exact ⟨⟨hc, by simpa using hget, by simpa using hwrite⟩, hcan, htook.avail, htook.slot⟩

theorem newBlock_runs {nb : NewBlockEnv} (h : nb.Runs b) (hcan : w.CanTake fs b) (ok : ℤ → Bool) :
    ∃ w', ext4ExtNewBlock fs ok nb w = (.ok b, w') := by
  obtain ⟨w', hw'⟩ := takeBlock_of_canTake hcan 0
  unfold ext4ExtNewBlock
  simp only [h.alloc, hw', h.getblk, h.write, Bool.true_eq_false, if_false]
  exact ⟨_, rfl⟩

/-- The second block is another one. -/
theorem canTake_after {o n : ℕ} (h : w'.avail = fun x => if x = o then false else w.avail x) :
    w'.CanTake fs n ↔ w.CanTake fs n ∧ n ≠ o := by
  unfold World.CanTake
  rw [h]
  by_cases hno : n = o
  · simp [hno]
  · simp [hno]

/-- A growth that reports success took every step, and left two leaves below a new root. -/
theorem growDepth0_ok (h : (growDepth0 fs env path newext w).1 = none) :
    ∃ oldBlock newBlock, env.GrowRuns fs w oldBlock newBlock ∧
      let old := lowerHalf (w.node fs path.header)
      let new := newLeaf (w.node fs path.header) newext
      let w' := (growDepth0 fs env path newext w).2
      w'.node fs none = grownRoot (w.node fs none) old new oldBlock newBlock ∧
        w'.node fs (some oldBlock) = old ∧ w'.node fs (some newBlock) = new := by
  unfold growDepth0 at h ⊢
  rcases h₁ : ext4ExtNewBlock fs env.bitmapOk env.old w with ⟨r₁, w₁⟩
  cases r₁ with
  | error e => simp [h₁] at h
  | ok oldBlock =>
    rcases h₂ : ext4ExtNewBlock fs env.bitmapOk env.new w₁ with ⟨r₂, w₂⟩
    cases r₂ with
    | error e => simp [h₁, h₂] at h
    | ok newBlock =>
      simp only [h₁, h₂] at h ⊢
      by_cases hog : env.oldGet = false
      · simp [hog] at h
      by_cases hng : env.newGet = false
      · simp [hog, hng] at h
      by_cases how : env.oldWrite = false
      · simp [hog, hng, how] at h
      by_cases hnw : env.newWrite = false
      · simp [hog, hng, how, hnw] at h
      obtain ⟨hold, hcold, havail, hroot₁⟩ := newBlock_ok h₁
      obtain ⟨hnew, hcnew, -, hroot₂⟩ := newBlock_ok h₂
      obtain ⟨hcnew, hne⟩ := (canTake_after havail).1 hcnew
      refine ⟨oldBlock, newBlock, ⟨hold, hnew, hcold, hcnew, hne, by simpa using hog,
        by simpa using hng, by simpa using how, by simpa using hnw⟩, ?_⟩
      have hnone : w₂.node fs none = w.node fs none := hroot₂.trans hroot₁
      have hne' : ¬ oldBlock = newBlock := fun heq => hne heq.symm
      simp [hog, hng, how, hnw, hnone, hne']

theorem growDepth0_runs {o n : ℕ} (path : ExtPath) (newext : Ext4Extent)
    (h : env.GrowRuns fs w o n) :
    (growDepth0 fs env path newext w).1 = none := by
  obtain ⟨w₁, h₁⟩ := newBlock_runs h.old h.canTake_old env.bitmapOk
  obtain ⟨w₂, h₂⟩ := newBlock_runs h.new
    ((canTake_after (newBlock_ok h₁).2.2.1).2 ⟨h.canTake_new, h.ne⟩) env.bitmapOk
  unfold growDepth0
  simp [h₁, h₂, h.oldGet, h.newGet, h.oldWrite, h.newWrite]

/-! ### What the growth loses -/

theorem copyFrom_entry (src n : ExtNode) (k j : ℕ) (hj : 1 ≤ j) :
    (ExtNode.copyFrom src 0 k n).entry j = if j ≤ k then src.entry j else n.entry j := by
  induction k with
  | zero =>
    rw [if_neg (by omega)]
    rfl
  | succ k ih =>
    rw [ExtNode.copyFrom, ExtNode.entry_put (src.entry_len_lt _), ih]
    by_cases h : j = k + 1
    · rw [if_pos h, if_pos h.le, h, Nat.zero_add]
    · rw [if_neg h]
      exact if_congr (by omega) rfl rfl

/-- The lower half of a node keeps its first entries. -/
theorem lowerHalf_entry (n : ExtNode) {j : ℕ} (hj : 1 ≤ j) :
    (lowerHalf n).entry j = if j ≤ n.max / 2 then n.entry j else ExtNode.zero.entry j := by
  rw [lowerHalf, ExtNode.entry_setHeader (by omega), copyFrom_entry _ _ _ _ hj]

theorem lowerHalf_ecount (n : ExtNode) : (lowerHalf n).ecount = n.max / 2 :=
  (ExtNode.header_setHeader (by decide) n.max_lt).2.1

theorem newLeaf_ecount (n : ExtNode) (e : Ext4Extent) : (newLeaf n e).ecount = 1 :=
  (ExtNode.header_put (by decide)).ecount.trans
    (ExtNode.header_setHeader (by decide) n.max_lt).2.1

theorem newLeaf_max (n : ExtNode) (e : Ext4Extent) : (newLeaf n e).max = n.max :=
  (ExtNode.header_put (by decide)).max.trans
    (ExtNode.header_setHeader (by decide) n.max_lt).2.2.1

/-- The index the growth leaves: two keys, two leaves. -/
theorem grownRoot_header (root old new : ExtNode) (o m : ℕ) :
    (grownRoot root old new o m).magic = EXT4_EXT_MAGIC ∧ (grownRoot root old new o m).ecount = 2 ∧
      (grownRoot root old new o m).depth = 1 := by
  have hsame : ExtNode.SameHeader (grownRoot root old new o m)
      (root.setHeader EXT4_EXT_MAGIC 2 3 1) := .of_words rfl rfl
  obtain ⟨hmagic, hecount, -, hdepth⟩ := ExtNode.header_setHeader (n := root)
    (e := 2) (d := 1) (by decide : EXT4_EXT_MAGIC < 2 ^ 16) (by decide : 3 < 2 ^ 16)
  exact ⟨hsame.magic.trans hmagic, hsame.ecount.trans hecount, hsame.depth.trans hdepth⟩

theorem grownRoot_entries (root old new : ExtNode) {o m : ℕ} (ho : o < 2 ^ 32) (hm : m < 2 ^ 32) :
    (grownRoot root old new o m).blk 1 = old.blk 1 ∧ (grownRoot root old new o m).leaf 1 = o ∧
      (grownRoot root old new o m).leaf 2 = m := by
  unfold grownRoot ExtNode.putIndex
  simp [u32_of_lt ho, u32_of_lt hm]

/-- A block not before the first of two keys: the search ends at one of them. -/
theorem binsearch_two {n : ExtNode} (hcount : n.ecount = 2) (h : n.blk 1 ≤ lbn) :
    n.binsearch lbn = 1 ∨ n.binsearch lbn = 2 := by
  unfold ExtNode.binsearch BinarySearch.search
  rw [hcount]
  simp only [BinarySearch.loop, not_lt.2 h, if_false]
  by_cases h2 : lbn < n.blk 2
  · simp [h2]
  · simp [h2]

/-- The last entry of a full leaf is lost: after the growth no entry covers its first block. -/
theorem not_resolves_of_grown {n root : ExtNode} {lo hi o m p : ℕ} (hext : n.Extents lo hi)
    (hfull : n.ecount = n.max) (ho : o < 2 ^ 32) (hm : m < 2 ^ 32)
    (hone : newext.len = 1) (hne : n.blk n.max ≠ newext.blk)
    (hroot : w'.node fs none = grownRoot root (lowerHalf n) (newLeaf n newext) o m)
    (hold : w'.node fs (some o) = lowerHalf n)
    (hnew : w'.node fs (some m) = newLeaf n newext) :
    ¬ Resolves fs read w' (n.blk n.max) p := by
  rintro ⟨leaf, i, hfind, h1, he, hc, -⟩
  obtain ⟨hmagic, hecount, hdepth⟩ := grownRoot_header root (lowerHalf n) (newLeaf n newext) o m
  obtain ⟨hblk, hleaf1, hleaf2⟩ := grownRoot_entries root (lowerHalf n) (newLeaf n newext) ho hm
  -- the key of the lower half is its first block, or 0
  have hkey : (lowerHalf n).blk 1 ≤ n.blk n.max := by
    have hentry := congrArg Ext4Extent.blk (lowerHalf_entry n (le_refl 1))
    rw [show (lowerHalf n).blk 1 = ((lowerHalf n).entry 1).blk from rfl, hentry]
    split
    · have hsorted := hext.sorted 1 n.max le_rfl (by omega) hfull.ge
      exact (Nat.le_add_right _ _).trans hsorted
    · exact Nat.zero_le _
  unfold ext4ExtFindExtent at hfind
  simp only [hroot, hmagic, hdepth, ne_eq, not_true_eq_false, if_false, findLoop] at hfind
  split at hfind
  · simp at hfind
  · next header hloop =>
    split at hloop
    swap
    · simp at hloop
    simp only [Option.some.injEq, ExtPath.mk.injEq] at hfind hloop
    obtain ⟨rfl, -⟩ := hfind
    subst hloop
    rw [← hblk] at hkey
    rcases binsearch_two hecount hkey with hs | hs
    · -- the lower half has only entries before the last one
      rw [hs, hleaf1, hold] at he hc
      rw [lowerHalf_ecount] at he
      have hentry := lowerHalf_entry n h1
      rw [if_pos he] at hentry
      have hb : (lowerHalf n).blk i = n.blk i := congrArg Ext4Extent.blk hentry
      have hl : (lowerHalf n).len i = n.len i := congrArg Ext4Extent.len hentry
      have hsorted := hext.sorted i n.max h1 (by omega) hfull.ge
      have hup := hc.2
      omega
    · -- the other leaf has only the new extent
      rw [hs, hleaf2, hnew] at he hc
      rw [newLeaf_ecount] at he
      obtain rfl : i = 1 := by omega
      have hentry : (newLeaf n newext).entry 1 = newext := by
        rw [newLeaf, ExtNode.entry_put (by rw [hone]; decide), if_pos rfl]
      have hb : ((newLeaf n newext).entry 1).blk = newext.blk := by rw [hentry]
      have hl : ((newLeaf n newext).entry 1).len = newext.len := by rw [hentry]
      have hlo : ((newLeaf n newext).entry 1).blk ≤ n.blk n.max := hc.1
      have hup : n.blk n.max < ((newLeaf n newext).entry 1).blk + ((newLeaf n newext).entry 1).len :=
        hc.2
      omega

/-- A full leaf without room for any entry: the new one is over the capacity of its leaf. -/
theorem not_wf_of_grown {n root : ExtNode} {o m : ℕ} (hzero : n.max = 0) (ho : o < 2 ^ 32)
    (hm : m < 2 ^ 32)
    (hroot : w'.node fs none = grownRoot root (lowerHalf n) (newLeaf n newext) o m)
    (hnew : w'.node fs (some m) = newLeaf n newext) : ¬ w'.ExtWf fs read := by
  rintro ⟨hi, hwf⟩
  obtain ⟨-, hecount, hdepth⟩ := grownRoot_header root (lowerHalf n) (newLeaf n newext) o m
  obtain ⟨-, -, hleaf2⟩ := grownRoot_entries root (lowerHalf n) (newLeaf n newext) ho hm
  rw [hroot, hdepth] at hwf
  have hsub := (hwf.2.2 2 (by decide) (by rw [hroot, hecount])).2
  rw [hroot, hleaf2] at hsub
  have hle := hsub.header.ecount_le
  rw [hnew, newLeaf_ecount, newLeaf_max, hzero] at hle
  exact absurd hle (by decide)

/-- **The insertion into a full leaf** keeps what its caller relies on exactly if one of its steps
fails: a leaf has depth 0, so the tree always grows at its root, and only the lower half of the
entries is copied. -/
theorem grown_iff (path : ExtPath) (hwf : w.ExtWf fs read) (hcov : ¬ w.ExtCovered fs lbn)
    (hleaf : w.ExtLeaf fs path.header)
    (hfull : (w.node fs path.header).ecount = (w.node fs path.header).max) :
    ((ext4ExtInsertExtent fs env path ⟨lbn, 1, 0, b⟩ w).1 = none →
        Grown fs read w (ext4ExtInsertExtent fs env path ⟨lbn, 1, 0, b⟩ w).2 lbn b) ↔
      ¬ ∃ oldBlock newBlock, env.GrowRuns fs w oldBlock newBlock := by
  obtain ⟨hi, hwf⟩ := hwf
  obtain ⟨lo', hi', hin⟩ := hleaf.leafIn 0 hi
  have hnode := hin.wf hwf
  have hrun : ext4ExtInsertExtent fs env path ⟨lbn, 1, 0, b⟩ w =
      growDepth0 fs env path ⟨lbn, 1, 0, b⟩ w := by
    unfold ext4ExtInsertExtent
    simp only [hfull, lt_irrefl, if_false, hnode.header.depth, if_true]
  rw [hrun]
  constructor
  · rintro h ⟨o, m, hruns⟩
    have hnone := growDepth0_runs path ⟨lbn, 1, 0, b⟩ hruns
    have hgrown := h hnone
    obtain ⟨o, m, hruns, hroot, hold, hnew⟩ := growDepth0_ok hnone
    have ho : o < 2 ^ 32 := hruns.canTake_old.2.2.2.trans (by decide)
    have hm : m < 2 ^ 32 := hruns.canTake_new.2.2.2.trans (by decide)
    by_cases hzero : (w.node fs path.header).max = 0
    · exact not_wf_of_grown hzero ho hm hroot hnew hgrown.wf
    · have hlen := hnode.2.len_pos _ (Nat.pos_of_ne_zero hzero) hfull.ge
      have hc : (w.node fs path.header).Covers (w.node fs path.header).max
          ((w.node fs path.header).blk (w.node fs path.header).max) := ⟨le_rfl, by omega⟩
      have hmaps := hin.maps (Nat.pos_of_ne_zero hzero) hfull.ge hc
      have hne : (w.node fs path.header).blk (w.node fs path.header).max ≠ lbn := by
        intro heq
        rw [heq] at hmaps
        exact hcov ⟨_, hmaps⟩
      exact not_resolves_of_grown hnode.2 hfull ho hm rfl hne hroot hold hnew
        (hgrown.old _ _ hmaps)
  · intro hno hnone
    obtain ⟨o, m, hruns, -⟩ := growDepth0_ok hnone
    exact absurd ⟨o, m, hruns⟩ hno

end Grow

/-- A root leaf with all of its four entries in use: the logical blocks 0, 2, 4 and 6 are at the blocks
100, 102, 104 and 106. -/
def fullRoot : World :=
  { World.ofWords [EXT4_EXT_MAGIC + 4 * 2 ^ 16, 4, 0, 0, 1, 100, 2, 1, 102, 4, 1, 104, 6, 1, 106]
      28672 with avail := fun b => decide (b = 600 ∨ b = 700) }

theorem fullRoot_ecount : (fullRoot.node volume4k none).ecount = 4 := by decide

theorem fullRoot_wf : fullRoot.ExtWf volume4k fun _ => true := by
  refine ⟨7, (⟨by decide, by decide, by decide⟩ : ExtNode.Header _ 0), ?_⟩
  refine ⟨fun i h1 hi => ?_, fun i h1 hi => ?_, fun i h1 hi => Nat.zero_le _, fun i h1 hi => ?_,
    fun i j h1 hij hj => ?_⟩
  · rw [fullRoot_ecount] at hi
    interval_cases i <;> decide
  · rw [fullRoot_ecount] at hi
    interval_cases i <;> decide
  · rw [fullRoot_ecount] at hi
    interval_cases i <;> decide
  · rw [fullRoot_ecount] at hj
    have hi : i < 4 := by omega
    interval_cases i <;> interval_cases j <;> decide

theorem fullRoot_hole : ¬ fullRoot.ExtCovered volume4k 8 := by
  rintro ⟨p, i, h1, hi, hc, -⟩
  rw [fullRoot_ecount] at hi
  interval_cases i <;> exact absurd hc (by decide)

/-- Without a free block the insertion does not run through, which is all that can keep the tree. -/
theorem grown_of_no_space :
    ((ext4ExtInsertExtent volume4k { goodExtEnv with old := ⟨none, true, true⟩ } ⟨none, some 4⟩
          ⟨8, 1, 0, 500⟩ fullRoot).1 = none →
        Grown volume4k (fun _ => true) fullRoot
          (ext4ExtInsertExtent volume4k { goodExtEnv with old := ⟨none, true, true⟩ } ⟨none, some 4⟩
            ⟨8, 1, 0, 500⟩ fullRoot).2 8 500) ↔
      ¬ ∃ o n, ExtEnv.GrowRuns volume4k { goodExtEnv with old := ⟨none, true, true⟩ } fullRoot o n :=
  grown_iff ⟨none, some 4⟩ fullRoot_wf fullRoot_hole rfl fullRoot_ecount

/-- The growth of a full root leaf reports success, and the logical block 6 is no longer mapped. -/
theorem growth_loses_last_extent :
    (ext4ExtInsertExtent volume4k goodExtEnv ⟨none, some 4⟩ ⟨8, 1, 0, 500⟩ fullRoot).1 = none ∧
      ¬ Grown volume4k (fun _ => true) fullRoot
        (ext4ExtInsertExtent volume4k goodExtEnv ⟨none, some 4⟩ ⟨8, 1, 0, 500⟩ fullRoot).2 8 500 := by
  refine ⟨by decide +kernel, fun h => ?_⟩
  obtain ⟨leaf, i, hfind, -, -, hc, -⟩ :=
    h.old 6 106 ⟨4, by decide, by rw [fullRoot_ecount], by decide, by decide⟩
  have heval : ext4ExtFindExtent volume4k (fun _ => true)
      (ext4ExtInsertExtent volume4k goodExtEnv ⟨none, some 4⟩ ⟨8, 1, 0, 500⟩ fullRoot).2 6 =
      some ⟨some 600, some 2⟩ := by decide +kernel
  rw [heval] at hfind
  simp only [Option.some.injEq, ExtPath.mk.injEq] at hfind
  obtain ⟨rfl, rfl⟩ := hfind
  revert hc
  decide +kernel

end Ext2fs
