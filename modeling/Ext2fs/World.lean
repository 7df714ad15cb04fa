import Ext2fs.Inode

/-!
# The state the block functions work on

`ext2_balloc`, `ext2_truncate` and `ext2_write` change one in-core inode, the indirect blocks on the
device and the free-block bitmap.  `World` holds the three, with a record of what was freed and of
the inode image handed to the buffer layer last.

The buffer layer is seen through the contents it shows: `dev` maps a device address to the pointers a
read of that address returns.  A write that succeeds, at once or delayed, changes them; a synchronous
write that fails drops the buffer, so that the next read shows the old contents.  Allocation takes
any free block, or none: `takeBlock` accepts what the caller's environment proposes only when the
bitmap has it free, which is all that `ext2_alloc` promises.
-/

namespace Ext2fs

open PtrTree

/-- The pointers and the size in an on-disk inode image. -/
structure Image where
  size : ℕ
  db : ℕ → ℕ
  ib : ℕ → ℕ

/-- A call of `ext2_blkfree`: its block, and the device and the inode image at that moment. -/
structure FreeEvent where
  bno : ℤ
  dev : ℤ → ℕ → ℕ
  image : Option Image

/-- One in-core inode with the device and the block bitmap below it. -/
structure World where
  ip : Inode
  /-- the pointers the buffer layer shows at a device address -/
  dev : ℤ → ℕ → ℕ
  /-- a clear bit in the block bitmap -/
  avail : ℕ → Bool
  /-- the calls of `ext2_blkfree` so far -/
  freed : List FreeEvent
  /-- the image of the inode handed to the buffer layer last -/
  image : Option Image
  /-- the kernel has stopped; what comes after is not a state of the machine -/
  panicked : Bool

namespace World

variable (fs : MExt2fs) (w : World)

/-- The pointers of each file system block. -/
def store : Store := fun b => w.dev (fs.fsbtodb b)

/-- The physical block of a logical block of the inode. -/
def map (lbn : ℕ) : ℕ := blockMap fs.nindir (w.store fs) w.ip lbn

/-- The inode refers to the block. -/
def Owned (b : ℕ) : Prop := Owns fs.nindir (w.store fs) w.ip b

/-- The invariant of a consistent volume: no block is referenced twice, and no referenced block is
free. -/
structure Sound : Prop where
  shaped : TreeShaped fs.nindir (w.store fs) w.ip
  used : ∀ b, w.Owned fs b → w.avail b = false

/-- A block that may be allocated. -/
def Fresh (b : ℕ) : Prop := w.avail b = true ∧ b < 2 ^ 31

/-- A write of a block of pointers. -/
def setBlk (b : ℕ) (bap : ℕ → ℕ) : World :=
  { w with dev := fun a => if a = fs.fsbtodb b then bap else w.dev a }

/-- The allocation of a proposed block, `ext2_alloc` as its callers see it: the block must be free,
and a block number from `2 ^ 31` on is lost in `int32_t bno`.  The state without a result is that of
`lostBit`. -/
def takeBlock (lbn : ℕ) (choice : Option ℕ) : Option (ℕ × World) :=
  match choice with
  | none => none
  | some b =>
      if w.avail b ∧ 0 < b ∧ b < fs.bcount ∧ b < 2 ^ 31 then
        some (b, { w with
          avail := fun x => if x = b then false else w.avail x
          ip := { w.ip with
            nextAllocBlock := u32 lbn
            nextAllocGoal := b
            blocks := w.ip.blocks + btodb fs.bsize
            flag := w.ip.flag.markChanged } })
      else none

/-- `ext2_alloc` when it returns `ENOSPC` for a block that `ext2_alloccg` found: the bit of the block was
set all the same. -/
def lostBit (choice : Option ℕ) : World :=
  match choice with
  | none => w
  | some b =>
      if w.avail b ∧ b < fs.bcount then
        { w with avail := fun x => if x = b then false else w.avail x }
      else w

/-- `ext2_blkfree`: the bit of the block is cleared, unless the block is off the volume or its bitmap
cannot be read; a clear bit is the "freeing free block" panic.  A negative number selects no group
descriptor of the table, so nothing is known of its effect but the call itself. -/
def blkfree (bitmapOk : ℤ → Bool) (bno : ℤ) : World :=
  let w := { w with freed := w.freed ++ [⟨bno, w.dev, w.image⟩] }
  if fs.bcount ≤ u32 bno then w
  else if bno < 0 ∨ bitmapOk bno = false then w
  else if w.avail bno.toNat then { w with panicked := true }
  else { w with avail := fun x => if x = bno.toNat then true else w.avail x }

/-- A file without blocks on a volume with the free blocks `avail`. -/
def empty (avail : ℕ → Bool) : World where
  ip := emptyInode
  dev := fun _ _ => 0
  avail := avail
  freed := []
  image := none
  panicked := false

variable {fs w}

section

variable (fs w)

@[simp] theorem lostBit_none : w.lostBit fs none = w := rfl

theorem lostBit_eq (choice : Option ℕ) :
    w.lostBit fs choice = { w with avail := (w.lostBit fs choice).avail } := by
  cases choice with
  | none => rfl
  | some b =>
    unfold lostBit
    dsimp only
    split <;> rfl

@[simp] theorem lostBit_ip (choice : Option ℕ) : (w.lostBit fs choice).ip = w.ip := by
  rw [lostBit_eq]

@[simp] theorem lostBit_dev (choice : Option ℕ) : (w.lostBit fs choice).dev = w.dev := by
  rw [lostBit_eq]

@[simp] theorem lostBit_store (choice : Option ℕ) : (w.lostBit fs choice).store fs = w.store fs := by
  unfold store
  rw [lostBit_dev]

@[simp] theorem lostBit_freed (choice : Option ℕ) : (w.lostBit fs choice).freed = w.freed := by
  rw [lostBit_eq]

@[simp] theorem lostBit_image (choice : Option ℕ) : (w.lostBit fs choice).image = w.image := by
  rw [lostBit_eq]

@[simp] theorem lostBit_panicked (choice : Option ℕ) :
    (w.lostBit fs choice).panicked = w.panicked := by
  rw [lostBit_eq]

/-- The free blocks afterwards were free before. -/
theorem lostBit_avail {choice : Option ℕ} {x : ℕ} (h : (w.lostBit fs choice).avail x = true) :
    w.avail x = true := by
  cases choice with
  | none => exact h
  | some b =>
    unfold lostBit at h
    dsimp only at h
    split at h
    · by_cases hx : x = b
      · simp [hx] at h
      · simpa [hx] using h
    · exact h

end

theorem empty_slot (avail : ℕ → Bool) (s : ℕ) : (empty avail).ip.slot s = 0 := by
  simp [empty, Inode.slot, emptyInode]

theorem empty_sound (avail : ℕ → Bool) : (empty avail).Sound fs where
  shaped := by
    refine ⟨fun s _ => ?_, fun s _ s' _ _ b hb => ?_⟩
    · rw [empty_slot]
      exact sep_null
    · rw [empty_slot] at hb
      exact absurd hb not_mem_null
  used b hb := by
    obtain ⟨s, _, hb⟩ := hb
    rw [empty_slot] at hb
    exact absurd hb not_mem_null

@[simp] theorem empty_map (fs : MExt2fs) (avail : ℕ → Bool) (lbn : ℕ) : (empty avail).map fs lbn = 0 := by
  unfold map blockMap
  split
  · rw [empty_slot, lookup_null]
  · rfl

/-- A file whose only block is the direct block `b`. -/
def single (b size : ℕ) : World :=
  { empty fun x => decide (x ≠ b) with
    ip := { emptyInode with size := size, db := fun i => if i = 0 then b else 0 } }

@[simp] theorem store_setBlk (b : ℕ) (bap : ℕ → ℕ) :
    (w.setBlk fs b bap).store fs = fun x => if x = b then bap else w.store fs x := by
  funext x
  simp [store, setBlk]

@[simp] theorem setBlk_ip (b : ℕ) (bap : ℕ → ℕ) : (w.setBlk fs b bap).ip = w.ip := rfl

@[simp] theorem setBlk_avail (b : ℕ) (bap : ℕ → ℕ) : (w.setBlk fs b bap).avail = w.avail := rfl

@[simp] theorem setBlk_freed (b : ℕ) (bap : ℕ → ℕ) : (w.setBlk fs b bap).freed = w.freed := rfl

@[simp] theorem setBlk_image (b : ℕ) (bap : ℕ → ℕ) : (w.setBlk fs b bap).image = w.image := rfl

@[simp] theorem setBlk_panicked (b : ℕ) (bap : ℕ → ℕ) :
    (w.setBlk fs b bap).panicked = w.panicked := rfl

/-! ### What an allocation and a free change -/

/-- What a successful allocation says about the block and the new state. -/
structure Took (fs : MExt2fs) (w w' : World) (b : ℕ) : Prop where
  free : w.avail b = true
  pos : b ≠ 0
  lt : b < 2 ^ 31
  avail : w'.avail = fun x => if x = b then false else w.avail x
  db : w'.ip.db = w.ip.db
  ib : w'.ip.ib = w.ip.ib
  size : w'.ip.size = w.ip.size
  dev : w'.dev = w.dev
  freed : w'.freed = w.freed
  image : w'.image = w.image
  panicked : w'.panicked = w.panicked

theorem takeBlock_spec {lbn b : ℕ} {choice : Option ℕ} {w' : World}
    (h : w.takeBlock fs lbn choice = some (b, w')) : Took fs w w' b := by
  cases choice with
  | none => simp [takeBlock] at h
  | some c =>
    simp only [takeBlock] at h
    split at h
    · next hc =>
      simp only [Option.some.injEq, Prod.mk.injEq] at h
      obtain ⟨rfl, rfl⟩ := h
      exact ⟨hc.1, hc.2.1.ne', hc.2.2.2, rfl, rfl, rfl, rfl, rfl, rfl, rfl, rfl⟩
    · simp at h

theorem Took.fresh {b : ℕ} {w' : World} (h : Took fs w w' b) : w.Fresh b := ⟨h.free, h.lt⟩

variable {bitmapOk : ℤ → Bool} {bno : ℤ}

@[simp] theorem blkfree_ip : (w.blkfree fs bitmapOk bno).ip = w.ip := by
  unfold blkfree
  dsimp only
  split_ifs <;> rfl

@[simp] theorem blkfree_dev : (w.blkfree fs bitmapOk bno).dev = w.dev := by
  unfold blkfree
  dsimp only
  split_ifs <;> rfl

@[simp] theorem blkfree_store : (w.blkfree fs bitmapOk bno).store fs = w.store fs := by
  unfold store
  rw [blkfree_dev]

@[simp] theorem blkfree_image : (w.blkfree fs bitmapOk bno).image = w.image := by
  unfold blkfree
  dsimp only
  split_ifs <;> rfl

@[simp] theorem blkfree_freed :
    (w.blkfree fs bitmapOk bno).freed = w.freed ++ [⟨bno, w.dev, w.image⟩] := by
  unfold blkfree
  dsimp only
  split_ifs <;> rfl

/-- A free only makes its own block available. -/
theorem blkfree_avail_ne {x : ℕ} (h : (x : ℤ) ≠ bno) :
    (w.blkfree fs bitmapOk bno).avail x = w.avail x := by
  have hx : 0 ≤ bno → x ≠ bno.toNat := by omega
  unfold blkfree
  dsimp only
  split_ifs with h1 h2 h3
  · rfl
  · rfl
  · rfl
  · have := hx (by omega)
    simp [this]

/-- Freeing a block that is in use does not panic. -/
theorem blkfree_panicked (h : 0 ≤ bno → w.avail bno.toNat = false) :
    (w.blkfree fs bitmapOk bno).panicked = w.panicked := by
  unfold blkfree
  dsimp only
  split_ifs with h1 h2 h3
  · rfl
  · rfl
  · rw [h (by omega)] at h3
    exact absurd h3 (by decide)
  · rfl

end World

end Ext2fs
