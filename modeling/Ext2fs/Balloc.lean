import Ext2fs.Bmap
import Ext2fs.World

/-!
# Block allocation: `ext2_balloc`

`ext2Balloc` is the block-mapped half of `ext2_balloc`: it finds the block of a logical block and
allocates it, with the indirect blocks on the way, where it is missing.  Everything that may fail is
named by depth in a `BallocEnv`: depth `0` is the block below the slot of the inode, depth `j + 1` the
block a pointer at depth `j` leads to.

* `Quiet` — what every step of a call leaves alone (`ballocWalk_quiet`);
* `World.Took.undo` — a block that is taken and given back leaves no trace;
* `World.publishBlk_ok`, `World.publishBlk_lost` — the two outcomes of a write whose error is
  ignored.

What a whole call does to the inode is the subject of `BallocSpec`.
-/

namespace Ext2fs

open PtrTree

/-- What the rest of the kernel answers during one call of `ext2_balloc`. -/
structure BallocEnv where
  /-- the block the allocator picks for a depth and a preference -/
  alloc : ℕ → ℕ → Option ℕ
  /-- `buf_getblk` of a new indirect block -/
  getblk : ℕ → Bool
  /-- the synchronous write of a new, cleared indirect block -/
  zeroWrite : ℕ → Bool
  /-- the read of an indirect block -/
  read : ℕ → Bool
  /-- the synchronous write of an indirect block that got a new pointer -/
  publish : ℕ → Bool
  /-- the buffer of the data block -/
  dataGet : Bool
  /-- the read of the block bitmap in `ext2_blkfree` -/
  bitmapOk : ℤ → Bool

/-! ### The functions -/

/-- The last non-zero pointer before slot `indx`. -/
def lastPointer (bap : ℕ → ℕ) : ℕ → Option ℕ
  | 0 => none
  | tmp + 1 => if bap tmp ≠ 0 then some (bap tmp) else lastPointer bap tmp

/-- `ext2_blkpref`: the preferred position for the next block of a file. -/
def ext2Blkpref (fs : MExt2fs) (ip : Inode) (lbn indx : ℕ) (bap : ℕ → ℕ) (blocknr : ℕ) : ℕ :=
  if ip.nextAllocBlock = lbn ∧ ip.nextAllocGoal ≠ 0 then ip.nextAllocGoal
  else match lastPointer bap indx with
    | some b => b
    | none => if blocknr ≠ 0 then blocknr else ip.blockGroup * fs.bpg + fs.firstDblock

namespace World

/-- `ip->i_db[lbn] = b` -/
def setDb (w : World) (lbn b : ℕ) : World :=
  { w with ip := { w.ip with db := fun i => if i = lbn then b else w.ip.db i } }

/-- `ip->i_ib[i] = b` -/
def setIb (w : World) (i b : ℕ) : World :=
  { w with ip := { w.ip with ib := fun j => if j = i then b else w.ip.ib j } }

/-- `ip->i_flag |= IN_CHANGE | IN_UPDATE` -/
def mark (w : World) : World := { w with ip := { w.ip with flag := w.ip.flag.markChanged } }

@[simp] theorem setDb_store (fs : MExt2fs) (w : World) (lbn b : ℕ) :
    (w.setDb lbn b).store fs = w.store fs := rfl

@[simp] theorem setIb_store (fs : MExt2fs) (w : World) (i b : ℕ) :
    (w.setIb i b).store fs = w.store fs := rfl

@[simp] theorem mark_store (fs : MExt2fs) (w : World) : w.mark.store fs = w.store fs := rfl

/-- `i_db` is the part of the slots below `NDADDR`. -/
theorem setDb_slot (w : World) {lbn b s : ℕ} (h : lbn < 12) :
    (w.setDb lbn b).ip.slot s = if s = lbn then b else w.ip.slot s := by
  unfold Inode.slot setDb NDADDR
  dsimp only
  split_ifs <;> first | rfl | omega

/-- `i_ib` is the part of the slots from `NDADDR` on. -/
theorem setIb_slot (w : World) {i b s : ℕ} :
    (w.setIb i b).ip.slot s = if s = i + 12 then b else w.ip.slot s := by
  unfold Inode.slot setIb NDADDR
  dsimp only
  split_ifs <;> first | rfl | omega

@[simp] theorem mark_slot (w : World) : w.mark.ip.slot = w.ip.slot := rfl

/-- A sequential allocation moves the `i_next_alloc` fields along. -/
def bumpNextAlloc (w : World) (lbn : ℤ) : World :=
  if lbn = ((w.ip.nextAllocBlock + 1) % 2 ^ 32 : ℕ) then
    { w with ip := { w.ip with
        nextAllocBlock := u32 (w.ip.nextAllocBlock + 1)
        nextAllocGoal := u32 (w.ip.nextAllocGoal + 1) } }
  else w

/-- The write of an indirect block that got a new pointer: delayed, or synchronous with its error
ignored. -/
def publishBlk (fs : MExt2fs) (w : World) (sync ok : Bool) (b : ℕ) (bap : ℕ → ℕ) : World :=
  if sync = true ∧ ok = false then w else w.setBlk fs b bap

end World

/-- The loop of `ext2_balloc` over the indirect blocks, followed by the data block: `path` is
`indirs[i..num]`, `j` the depth and `indirb` the physical address of the current indirect block. -/
def ballocWalk (fs : MExt2fs) (env : BallocEnv) (sync : Bool) (lbn : ℕ) :
    List Indir → ℕ → ℕ → ℕ → World → Option Errno × World
  | [], _, _, _, w => (none, w)
  | ap :: rest, j, pref, indirb, w =>
      if env.read j = false then (some .eio, w)
      else
        let bap := w.store fs indirb
        let nb := bap ap.off
        match rest with
        | [] =>
            -- get the data block, allocating if necessary
            if nb ≠ 0 then (if env.dataGet then none else some .eio, w)
            else
              let pref := ext2Blkpref fs w.ip lbn ap.off bap (u32 ap.lbn)
              match w.takeBlock fs lbn (env.alloc (j + 1) pref) with
              | none => (some .enospc, w.lostBit fs (env.alloc (j + 1) pref))
              | some (newb, w) =>
                  if env.dataGet = false then (some .eio, w.blkfree fs env.bitmapOk newb)
                  else
                    let bap := fun x => if x = ap.off then u32 newb else bap x
                    (none, w.publishBlk fs sync (env.publish j) indirb bap)
        | next :: _ =>
            if nb ≠ 0 then ballocWalk fs env sync lbn rest (j + 1) pref nb w
            else
              let pref :=
                if pref = 0 then ext2Blkpref fs w.ip lbn next.off bap (u32 next.lbn) else pref
              match w.takeBlock fs lbn (env.alloc (j + 1) pref) with
              | none => (some .enospc, w.lostBit fs (env.alloc (j + 1) pref))
              | some (newb, w) =>
                  if env.getblk (j + 1) = false then (some .eio, w.blkfree fs env.bitmapOk newb)
                  else if env.zeroWrite (j + 1) = false then
                    (some .eio, w.blkfree fs env.bitmapOk newb)
                  else
                    let w := w.setBlk fs newb fun _ => 0
                    let bap := fun x => if x = ap.off then u32 newb else bap x
                    let w := w.publishBlk fs sync (env.publish j) indirb bap
                    ballocWalk fs env sync lbn rest (j + 1) pref newb w

/-- The direct blocks of `ext2_balloc`. -/
def ballocDirect (fs : MExt2fs) (env : BallocEnv) (lbn size : ℕ) (w : World) :
    Option Errno × World :=
  let nb := w.ip.db lbn
  if nb ≠ 0 ∧ (lbn + 1) * fs.bsize ≤ w.ip.size then (if env.dataGet then none else some .eio, w)
  else if nb ≠ 0 then
    let osize := fs.fragroundup (fs.blkoff w.ip.size)
    let nsize := fs.fragroundup size
    if nsize ≤ osize then
      if env.dataGet then (none, w.mark) else (some .eio, w)
    else
      -- panic("ext2_balloc: Something is terribly wrong")
      (none, { w with panicked := true })
  else
    let pref := ext2Blkpref fs w.ip lbn lbn w.ip.slot 0
    match w.takeBlock fs lbn (env.alloc 0 pref) with
    | none => (some .enospc, w.lostBit fs (env.alloc 0 pref))
    | some (newb, w) =>
        -- the pointer has to be in place before the buffer is asked for
        let w := w.setDb lbn (u32 newb)
        if env.dataGet = false then
          (some .eio, (w.setDb lbn 0).blkfree fs env.bitmapOk newb)
        else (none, w.mark)

/-- The indirect blocks of `ext2_balloc`: the first one hangs off the inode. -/
def ballocIndirect (fs : MExt2fs) (env : BallocEnv) (sync : Bool) (lbn : ℕ) (ap : Indir)
    (path : List Indir) (w : World) : Option Errno × World :=
  let nb := w.ip.ib ap.off
  if nb ≠ 0 then ballocWalk fs env sync lbn path 0 0 nb w
  else
    let pref := ext2Blkpref fs w.ip lbn (ap.off + NDADDR) w.ip.slot 0
    match w.takeBlock fs lbn (env.alloc 0 pref) with
    | none => (some .enospc, w.lostBit fs (env.alloc 0 pref))
    | some (newb, w) =>
        if env.getblk 0 = false then (some .eio, w.blkfree fs env.bitmapOk newb)
        else if env.zeroWrite 0 = false then (some .eio, w.blkfree fs env.bitmapOk newb)
        else
          let w := w.setBlk fs newb fun _ => 0
          let w := (w.setIb ap.off (u32 newb)).mark
          ballocWalk fs env sync lbn path 0 pref newb w

/-- `ext2_balloc` for a block-mapped inode; `sync` is `flags & IO_SYNC`. -/
def ext2Balloc (fs : MExt2fs) (env : BallocEnv) (sync : Bool) (lbn : ℤ) (size : ℕ) (w : World) :
    Option Errno × World :=
  if lbn < 0 then (some .efbig, w)
  else
    let w := w.bumpNextAlloc lbn
    if lbn < NDADDR then ballocDirect fs env lbn.toNat size w
    else match ext2Getlbns fs.nindir lbn with
      | .error e => (some e, w)
      | .ok [] => (some .efbig, w)
      | .ok (ap :: path) => ballocIndirect fs env sync lbn.toNat ap path w

/-! ### What a step leaves alone -/

/-- The size and the written image stay, and no block becomes available. -/
structure Calm (w w' : World) : Prop where
  size : w'.ip.size = w.ip.size
  image : w'.image = w.image
  avail : ∀ b, w'.avail b = true → w.avail b = true

/-- The inode keeps its pointers as well, and the kernel runs on. -/
structure Quiet (w w' : World) : Prop extends Calm w w' where
  db : w'.ip.db = w.ip.db
  ib : w'.ip.ib = w.ip.ib
  panicked : w'.panicked = w.panicked

theorem Calm.avail_false {w w' : World} (h : Calm w w') {b : ℕ} (hb : w.avail b = false) :
    w'.avail b = false := by
  by_contra hc
  rw [h.avail b (by simpa using hc)] at hb
  exact absurd hb (by decide)

theorem Calm.trans {w₁ w₂ w₃ : World} (h : Calm w₁ w₂) (h' : Calm w₂ w₃) : Calm w₁ w₃ :=
  ⟨h'.size.trans h.size, h'.image.trans h.image, fun b hb => h.avail b (h'.avail b hb)⟩

theorem Quiet.refl (w : World) : Quiet w w := ⟨⟨rfl, rfl, fun _ h => h⟩, rfl, rfl, rfl⟩

theorem Quiet.trans {w₁ w₂ w₃ : World} (h : Quiet w₁ w₂) (h' : Quiet w₂ w₃) : Quiet w₁ w₃ :=
  ⟨h.toCalm.trans h'.toCalm, h'.db.trans h.db, h'.ib.trans h.ib, h'.panicked.trans h.panicked⟩

section

variable {fs : MExt2fs} {w w' : World} {b : ℕ}

theorem World.Took.quiet (h : World.Took fs w w' b) : Quiet w w' :=
  ⟨⟨h.size, h.image, fun x hx => by
    rw [h.avail] at hx
    by_cases hxb : x = b
    · simp [hxb] at hx
    · simpa [hxb] using hx⟩, h.db, h.ib, h.panicked⟩

theorem World.Took.store (h : World.Took fs w w' b) : w'.store fs = w.store fs := by
  unfold World.store
  rw [h.dev]

theorem World.Took.slot (h : World.Took fs w w' b) : w'.ip.slot = w.ip.slot :=
  Inode.slot_congr h.db h.ib

theorem World.Took.avail_self (h : World.Took fs w w' b) : w'.avail b = false := by
  simp [h.avail]

theorem World.Took.u32 (h : World.Took fs w w' b) : u32 b = b :=
  u32_of_lt (h.lt.trans (by norm_num))

/-- Taking a block and giving it back. -/
theorem World.Took.undo (h : World.Took fs w w' b) (ok : ℤ → Bool) :
    Quiet w (w'.blkfree fs ok b) where
  db := by rw [World.blkfree_ip, h.db]
  ib := by rw [World.blkfree_ip, h.ib]
  size := by rw [World.blkfree_ip, h.size]
  image := by rw [World.blkfree_image, h.image]
  panicked := by
    rw [World.blkfree_panicked, h.panicked]
    intro _
    exact h.avail_self
  avail x hx := by
    by_cases hxb : x = b
    · exact hxb ▸ h.free
    · rw [World.blkfree_avail_ne (by exact_mod_cast hxb), h.avail] at hx
      simpa [hxb] using hx

variable (fs w) in
/-- An allocation that is refused. -/
theorem Quiet.lostBit (choice : Option ℕ) : Quiet w (w.lostBit fs choice) where
  db := by rw [World.lostBit_ip]
  ib := by rw [World.lostBit_ip]
  size := by rw [World.lostBit_ip]
  image := World.lostBit_image fs w choice
  panicked := World.lostBit_panicked fs w choice
  avail _ hx := World.lostBit_avail fs w hx

theorem Quiet.setBlk (bap : ℕ → ℕ) : Quiet w (w.setBlk fs b bap) :=
  ⟨⟨rfl, rfl, fun _ h => h⟩, rfl, rfl, rfl⟩

theorem Quiet.publishBlk {sync ok : Bool} {bap : ℕ → ℕ} :
    Quiet w (w.publishBlk fs sync ok b bap) := by
  unfold World.publishBlk
  split
  · exact Quiet.refl w
  · exact Quiet.setBlk bap

@[simp] theorem World.publishBlk_freed {sync ok : Bool} {bap : ℕ → ℕ} :
    (w.publishBlk fs sync ok b bap).freed = w.freed := by
  unfold World.publishBlk
  split <;> rfl

@[simp] theorem World.publishBlk_avail {sync ok : Bool} {bap : ℕ → ℕ} :
    (w.publishBlk fs sync ok b bap).avail = w.avail := by
  unfold World.publishBlk
  split <;> rfl

theorem World.publishBlk_ok {sync ok : Bool} {bap : ℕ → ℕ} (h : sync = true → ok = true) :
    w.publishBlk fs sync ok b bap = w.setBlk fs b bap := by
  unfold World.publishBlk
  rw [if_neg]
  rintro ⟨h1, h2⟩
  rw [h h1] at h2
  exact absurd h2 (by decide)

theorem World.publishBlk_lost {sync ok : Bool} {bap : ℕ → ℕ} (h : ¬ (sync = true → ok = true)) :
    w.publishBlk fs sync ok b bap = w := by
  unfold World.publishBlk
  rw [if_pos]
  rw [Classical.not_imp] at h
  exact ⟨h.1, by simpa using h.2⟩

/-- The pointers of a block with one slot changed. -/
def putPtr (bap : ℕ → ℕ) (off b : ℕ) : ℕ → ℕ := fun x => if x = off then b else bap x

/-- Everything one round of the loop over the indirect blocks can come to. -/
inductive WalkStep (fs : MExt2fs) (env : BallocEnv) (sync : Bool) (lbn : ℕ) (ap : Indir)
    (rest : List Indir) (j pref indirb : ℕ) (w : World) : Option Errno × World → Prop
  | failed (e : Errno) : WalkStep fs env sync lbn ap rest j pref indirb w (some e, w)
  | refused (choice : Option ℕ) :
      WalkStep fs env sync lbn ap rest j pref indirb w (some .enospc, w.lostBit fs choice)
  | gaveBack (newb : ℕ) (w₁ : World) (htook : World.Took fs w w₁ newb) :
      WalkStep fs env sync lbn ap rest j pref indirb w
        (some .eio, w₁.blkfree fs env.bitmapOk newb)
  | found (hrest : rest = []) (hnb : w.store fs indirb ap.off ≠ 0) :
      WalkStep fs env sync lbn ap rest j pref indirb w (none, w)
  | placed (newb : ℕ) (w₁ : World) (htook : World.Took fs w w₁ newb) (hrest : rest = [])
      (hnb : w.store fs indirb ap.off = 0) :
      WalkStep fs env sync lbn ap rest j pref indirb w
        (none, w₁.publishBlk fs sync (env.publish j) indirb
          (putPtr (w.store fs indirb) ap.off newb))
  | down (hrest : rest ≠ []) (hnb : w.store fs indirb ap.off ≠ 0) :
      WalkStep fs env sync lbn ap rest j pref indirb w
        (ballocWalk fs env sync lbn rest (j + 1) pref (w.store fs indirb ap.off) w)
  | grew (pref' newb : ℕ) (w₁ : World) (htook : World.Took fs w w₁ newb) (hrest : rest ≠ [])
      (hnb : w.store fs indirb ap.off = 0) :
      WalkStep fs env sync lbn ap rest j pref indirb w
        (ballocWalk fs env sync lbn rest (j + 1) pref' newb
          ((w₁.setBlk fs newb fun _ => 0).publishBlk fs sync (env.publish j) indirb
            (putPtr (w.store fs indirb) ap.off newb)))

theorem ballocWalk_step (fs : MExt2fs) (env : BallocEnv) (sync : Bool) (lbn : ℕ) (ap : Indir)
    (rest : List Indir) (j pref indirb : ℕ) (w : World) :
    WalkStep fs env sync lbn ap rest j pref indirb w
      (ballocWalk fs env sync lbn (ap :: rest) j pref indirb w) := by
  cases rest with
  | nil =>
    simp only [ballocWalk]
    split
    · exact .failed _
    · split
      · next hnb =>
        cases env.dataGet with
        | false => exact .failed _
        | true => exact .found rfl hnb
      · next hnb =>
        split
        · exact .refused _
        · next newb w₁ htake =>
          have htook := World.takeBlock_spec htake
          split
          · exact .gaveBack newb w₁ htook
          · rw [htook.u32]
            exact .placed newb w₁ htook rfl (not_not.1 hnb)
  | cons next tail =>
    rw [ballocWalk]
    simp only
    split
    · exact .failed _
    · split
      · next hnb => exact .down (List.cons_ne_nil _ _) hnb
      · next hnb =>
        split
        · exact .refused _
        · next newb w₁ htake =>
          have htook := World.takeBlock_spec htake
          split
          · exact .gaveBack newb w₁ htook
          · split
            · exact .gaveBack newb w₁ htook
            · rw [htook.u32]
              exact .grew _ newb w₁ htook (List.cons_ne_nil _ _) (not_not.1 hnb)

/-- The loop over the indirect blocks never changes the slots of the inode. -/
theorem ballocWalk_quiet (fs : MExt2fs) (env : BallocEnv) (sync : Bool) (lbn : ℕ)
    (path : List Indir) :
    ∀ (j pref indirb : ℕ) (w : World),
      Quiet w (ballocWalk fs env sync lbn path j pref indirb w).2 := by
  induction path with
  | nil =>
    intro j pref indirb w
    exact Quiet.refl w
  | cons ap rest ih =>
    intro j pref indirb w
    have hstep := ballocWalk_step fs env sync lbn ap rest j pref indirb w
    generalize ballocWalk fs env sync lbn (ap :: rest) j pref indirb w = r at hstep ⊢
    cases hstep with
    | failed e => exact Quiet.refl w
    | refused choice => exact .lostBit fs w choice
    | gaveBack newb w₁ htook => exact htook.undo env.bitmapOk
    | found hrest hnb => exact Quiet.refl w
    | placed newb w₁ htook hrest hnb => exact htook.quiet.trans Quiet.publishBlk
    | down hrest hnb => exact ih _ _ _ w
    | grew pref' newb w₁ htook hrest hnb =>
      refine htook.quiet.trans (Quiet.trans ?_ (ih _ _ _ _))
      exact (Quiet.setBlk _).trans Quiet.publishBlk

end

end Ext2fs
