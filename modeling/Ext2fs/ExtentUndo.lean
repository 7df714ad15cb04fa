import Ext2fs.ExtentInsert

/-!
# A growth of the extent tree that fails

`ext4_ext_grow_depth0` takes two blocks, fills them and makes the root an index over them.  Any of the
steps can fail.  `ext2_alloc` counts each block it hands out in `i_blocks`, and `ext2_blkfree` does not
count it back; a block from `2 ^ 31` on it does not hand out, but its bit is set; the root is rewritten in
place before the last two writes and never restored.

* `growDepth0_blocks` — what every end of the function does to `i_blocks`;
* `write_failure_dangles` — after a failure of the last two writes the root refers to freed blocks;
* **`undone_iff`** — an error leaves the inode and the blocks as they were exactly if no block was found.
-/

namespace Ext2fs

/-- The tree of height `k` at a node refers to a block: as a node below it, or as a block of an
extent. -/
def TreeRefers (fs : MExt2fs) (w : World) : ℕ → NodeRef → ℕ → Prop
  | 0, ref, b => ∃ lbn, Maps fs w 0 ref lbn b
  | k + 1, ref, b => ∃ i, 1 ≤ i ∧ i ≤ (w.node fs ref).ecount ∧
      ((w.node fs ref).leaf i = b ∨ TreeRefers fs w k (some ((w.node fs ref).leaf i)) b)

/-- The inode refers to a block. -/
def World.ExtRefers (fs : MExt2fs) (w : World) (b : ℕ) : Prop :=
  TreeRefers fs w (w.node fs none).depth none b

/-- The inode and the blocks are as they were, and nothing that was freed is referred to. -/
structure Undone (fs : MExt2fs) (w w' : World) : Prop where
  root : w'.node fs none = w.node fs none
  blocks : w'.ip.blocks = w.ip.blocks
  avail : w'.avail = w.avail
  unreferenced : ∀ ev ∈ w'.freed.drop w.freed.length, ∀ b : ℕ, ev.bno = b → ¬w'.ExtRefers fs b

/-! ### `i_blocks` -/

namespace World

variable {fs : MExt2fs} {w w' : World} {b lbn : ℕ} {choice : Option ℕ}

@[simp] theorem setNode_blocks (ref : NodeRef) (n : ExtNode) :
    (w.setNode fs ref n).ip.blocks = w.ip.blocks := by
  cases ref <;> rfl

@[simp] theorem setBlk_blocks (n : ℕ → ℕ) : (w.setBlk fs b n).ip.blocks = w.ip.blocks := rfl

@[simp] theorem addBlocks_blocks : (w.addBlocks b).ip.blocks = w.ip.blocks + b := rfl

@[simp] theorem subBlocks_blocks : (w.subBlocks b).ip.blocks = w.ip.blocks - b := rfl

@[simp] theorem mark_blocks : w.mark.ip.blocks = w.ip.blocks := rfl

@[simp] theorem addBlocks_freed : (w.addBlocks b).freed = w.freed := rfl

@[simp] theorem subBlocks_freed : (w.subBlocks b).freed = w.freed := rfl

@[simp] theorem mark_freed : w.mark.freed = w.freed := rfl

theorem takeBlock_blocks (h : w.takeBlock fs lbn choice = some (b, w')) :
    w'.ip.blocks = w.ip.blocks + btodb fs.bsize := by
  cases choice with
  | none => simp [takeBlock] at h
  | some c =>
    simp only [takeBlock] at h
    split at h
    next =>
      cases h
      rfl
    next => cases h

/-- `ext2_alloccg` finds a block: one of the volume whose bit is clear. -/
def Finds (fs : MExt2fs) (w : World) (b : ℕ) : Prop := w.avail b = true ∧ b < fs.bcount

/-- Where nothing is found, nothing is taken and no bit is set. -/
theorem takeBlock_of_not_finds (lbn : ℕ) (h : ∀ b, choice = some b → ¬w.Finds fs b) :
    w.takeBlock fs lbn choice = none ∧ w.lostBit fs choice = w := by
  cases choice with
  | none => exact ⟨rfl, rfl⟩
  | some b => exact ⟨if_neg fun hc => h b rfl ⟨hc.1, hc.2.2.1⟩, if_neg (h b rfl)⟩

/-- The bit of a block that is found and not taken. -/
theorem lostBit_found (h : w.Finds fs b) : (w.lostBit fs (some b)).avail b = false := by
  unfold lostBit
  simp only [if_pos (show w.avail b = true ∧ b < fs.bcount from h), if_true]

end World

section Undo

variable {fs : MExt2fs} {ok : ℤ → Bool} {nb : NewBlockEnv} {env : ExtEnv} {w w' w₁ w₂ : World}
  {o m : ℕ} {e : Errno} {path : ExtPath} {newext : Ext4Extent}

theorem newBlock_none (h : w.takeBlock fs 0 nb.alloc = none) :
    ext4ExtNewBlock fs ok nb w = (.error .enospc, w.lostBit fs nb.alloc) := by
  simp only [ext4ExtNewBlock, h]

/-- A block that was handed out is counted, whether it is kept or given back. -/
theorem newBlock_blocks (ok : ℤ → Bool) (h : w.takeBlock fs 0 nb.alloc ≠ none) :
    (ext4ExtNewBlock fs ok nb w).2.ip.blocks = w.ip.blocks + btodb fs.bsize := by
  cases htake : w.takeBlock fs 0 nb.alloc with
  | none => exact absurd htake h
  | some r =>
    obtain ⟨b, w'⟩ := r
    have hblocks := World.takeBlock_blocks htake
    simp only [ext4ExtNewBlock, htake]
    split
    · simpa using hblocks
    · split
      · simpa using hblocks
      · simpa using hblocks

theorem newBlock_le (fs : MExt2fs) (ok : ℤ → Bool) (nb : NewBlockEnv) (w : World) :
    w.ip.blocks ≤ (ext4ExtNewBlock fs ok nb w).2.ip.blocks := by
  by_cases h : w.takeBlock fs 0 nb.alloc = none
  · rw [newBlock_none h, World.lostBit_ip]
  · rw [newBlock_blocks ok h]
    exact Nat.le_add_right _ _

/-- No end of the function counts the first block back. -/
theorem growDepth0_blocks (env : ExtEnv) (path : ExtPath) (newext : Ext4Extent)
    (h : w.takeBlock fs 0 env.old.alloc ≠ none) :
    w.ip.blocks + btodb fs.bsize ≤ (growDepth0 fs env path newext w).2.ip.blocks := by
  have hfirst := newBlock_blocks env.bitmapOk h
  unfold growDepth0
  rcases h₁ : ext4ExtNewBlock fs env.bitmapOk env.old w with ⟨r₁, w₁⟩
  rw [h₁] at hfirst
  cases r₁ with
  | error e => exact hfirst.ge
  | ok oldBlock =>
    have hsecond := newBlock_le fs env.bitmapOk env.new w₁
    rcases h₂ : ext4ExtNewBlock fs env.bitmapOk env.new w₁ with ⟨r₂, w₂⟩
    rw [h₂] at hsecond
    have hle : w.ip.blocks + btodb fs.bsize ≤ w₂.ip.blocks := hfirst.ge.trans hsecond
    cases r₂ with
    | error e => simpa [h₂] using hle
    | ok newBlock =>
      simp only [h₂]
      split_ifs
      · simpa using hle
      · simpa using hle
      · simpa using hle
      · simpa using hle
      · simp only [World.setBlk_blocks, World.mark_blocks, World.addBlocks_blocks,
          World.setNode_blocks]
        omega

/-- **A failure of the last two writes** leaves a root over the two blocks, which are given back. -/
theorem write_failure_dangles (path : ExtPath) (newext : Ext4Extent)
    (h₁ : ext4ExtNewBlock fs env.bitmapOk env.old w = (.ok o, w₁))
    (h₂ : ext4ExtNewBlock fs env.bitmapOk env.new w₁ = (.ok m, w₂))
    (hold : env.oldGet = true) (hnew : env.newGet = true)
    (hfail : env.oldWrite = false ∨ env.newWrite = false) :
    (growDepth0 fs env path newext w).1 = some .eio ∧
      (growDepth0 fs env path newext w).2.ExtRefers fs o ∧
      (growDepth0 fs env path newext w).2.ExtRefers fs m ∧
      (growDepth0 fs env path newext w).2.freed.map (·.bno) =
        w₂.freed.map (·.bno) ++ [(o : ℤ), (m : ℤ)] := by
  have ho : o < 2 ^ 32 := (newBlock_ok h₁).2.1.2.2.2.trans (by decide)
  have hm : m < 2 ^ 32 := (newBlock_ok h₂).2.1.2.2.2.trans (by decide)
  have hroot : (growDepth0 fs env path newext w).2.node fs none =
      grownRoot (w₂.node fs none) (lowerHalf (w.node fs path.header))
        (newLeaf (w.node fs path.header) newext) o m := by
    unfold growDepth0
    simp only [h₁, h₂, hold, hnew, Bool.true_eq_false, if_false]
    split_ifs with how hnw
    · simp
    · simp
    · simp [how, hnw] at hfail
  obtain ⟨-, hecount, hdepth⟩ := grownRoot_header (w₂.node fs none)
    (lowerHalf (w.node fs path.header)) (newLeaf (w.node fs path.header) newext) o m
  obtain ⟨-, hleaf₁, hleaf₂⟩ := grownRoot_entries (w₂.node fs none)
    (lowerHalf (w.node fs path.header)) (newLeaf (w.node fs path.header) newext) ho hm
  have hrefers (i b : ℕ) (h1 : 1 ≤ i) (hi : i ≤ 2)
      (hb : (grownRoot (w₂.node fs none) (lowerHalf (w.node fs path.header))
        (newLeaf (w.node fs path.header) newext) o m).leaf i = b) :
      (growDepth0 fs env path newext w).2.ExtRefers fs b := by
    rw [World.ExtRefers, hroot, hdepth]
    exact ⟨i, h1, by rwa [hroot, hecount], .inl (by rw [hroot, hb])⟩
  refine ⟨?_, hrefers 1 o le_rfl (by decide) hleaf₁, hrefers 2 m (by decide) le_rfl hleaf₂, ?_⟩
  · unfold growDepth0
    simp only [h₁, h₂, hold, hnew, Bool.true_eq_false, if_false]
    split_ifs with how hnw
    · rfl
    · rfl
    · simp [how, hnw] at hfail
  · unfold growDepth0
    simp only [h₁, h₂, hold, hnew, Bool.true_eq_false, if_false]
    split_ifs with how hnw
    · simp
    · simp
    · simp [how, hnw] at hfail

/-- **An error of the growth** leaves the inode and the blocks as they were exactly if the first search of
the bitmaps found no block. -/
theorem undone_iff (path : ExtPath) (newext : Ext4Extent)
    (_h : (growDepth0 fs env path newext w).1 = some e) :
    Undone fs w (growDepth0 fs env path newext w).2 ↔
      ∀ b, env.old.alloc = some b → ¬w.Finds fs b := by
  constructor
  · intro h b hb hfinds
    by_cases hnone : w.takeBlock fs 0 env.old.alloc = none
    · -- the bit of the block is set all the same
      have hlost : (growDepth0 fs env path newext w).2 = w.lostBit fs (some b) := by
        unfold growDepth0
        rw [newBlock_none hnone, hb]
      have hset := World.lostBit_found hfinds
      rw [← hlost, h.avail, hfinds.1] at hset
      cases hset
    · have hle := growDepth0_blocks env path newext hnone
      have hpos : 0 < btodb fs.bsize := by
        rcases fs.bsize_cases with hb | hb | hb <;> simp [btodb, hb]
      have := h.blocks
      omega
  · intro hnone
    obtain ⟨htake, hlost⟩ := World.takeBlock_of_not_finds 0 hnone
    have hsame : (growDepth0 fs env path newext w).2 = w := by
      unfold growDepth0
      rw [newBlock_none htake, hlost]
    rw [hsame]
    exact ⟨rfl, rfl, rfl, fun ev hev => by simp at hev⟩

end Undo

/-- The last write fails: the root is an index over the blocks 600 and 700, which are free again. -/
theorem last_write_not_undone :
    (growDepth0 volume4k { goodExtEnv with newWrite := false } ⟨none, some 4⟩ ⟨8, 1, 0, 500⟩ fullRoot).1 =
        some .eio ∧
      ¬Undone volume4k fullRoot (growDepth0 volume4k { goodExtEnv with newWrite := false }
        ⟨none, some 4⟩ ⟨8, 1, 0, 500⟩ fullRoot).2 := by
  refine ⟨by decide +kernel, fun h => ?_⟩
  have hdepth := congrArg ExtNode.depth h.root
  revert hdepth
  decide +kernel

/-- A volume without a free block keeps its inode as it is. -/
theorem no_space_undone : Undone volume4k fullRoot (growDepth0 volume4k
    { goodExtEnv with old := ⟨none, true, true⟩ } ⟨none, some 4⟩ ⟨8, 1, 0, 500⟩ fullRoot).2 :=
  (undone_iff (e := .enospc) ⟨none, some 4⟩ ⟨8, 1, 0, 500⟩ (by decide +kernel)).2 nofun

end Ext2fs
