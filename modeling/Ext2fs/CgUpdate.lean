import Ext2fs.SbGeometry

/-!
# The superblock and the descriptor table on the device

`ext2_sbupdate` writes the superblock, `ext2_cgupdate` the superblock and every block of the group
descriptor table.  A device is the function from a device block to the image of the buffer there; the
result of each single write is given by the environment.

* `cgupdate_disk` — what a run of successful writes leaves on the device;
* `readsBack_iff` — the table is written where `compute_sb_data` reads it, inside the volume, exactly
  when `e2fs_first_dblock` agrees with the block size and the volume has room.
-/

namespace Ext2fs

/-! ### The functions -/

/-- What becomes of one `buf_getblk` and the write of its buffer. -/
inductive BufWrite where
  /-- there is no buffer -/
  | null
  /-- the block is written -/
  | ok
  /-- the write fails -/
  | fail (e : Errno)
  deriving DecidableEq, Repr

section Functions

variable {D : Type}

/-- The device after a buffer at device block `b` was filled with an image and written. -/
def BufWrite.put (w : BufWrite) (b : ℤ) (image : D) (disk : ℤ → D) : ℤ → D :=
  if w = .ok then Function.update disk b image else disk

/-- The error that a write reports: `buf_bwrite` waits for the result, `buf_bawrite` does not. -/
def BufWrite.error (w : BufWrite) (wait : Bool) : Option Errno :=
  match w with
  | .fail e => if wait then some e else none
  | _ => none

/-- `ext2_sbupdate`; the second result is the device. -/
def ext2Sbupdate (wait : Bool) (w : BufWrite) (sb : D) (disk : ℤ → D) : Option Errno × (ℤ → D) :=
  if w = .null then (some .eio, disk) else (w.error wait, w.put SBLOCK sb disk)

/-- The device block that descriptor block `i` is written to.  The block number is computed in
`uint32_t`. -/
def Geometry.descWriteAt (fs : Geometry) (firstDblock : BitVec 32) (i : ℕ) : ℤ :=
  fs.toDb (u32 (firstDblock.toNat + 1 + i : ℕ))

/-- The loop of `ext2_cgupdate`: `rounds` descriptor blocks from block `i` on.  The results are
`error`, `allerror` and the device. -/
def cgLoop (place : ℕ → ℤ) (wait : Bool) (ws : ℕ → BufWrite) (gd : ℕ → D) :
    ℕ → ℕ → Option Errno → Option Errno → (ℤ → D) → Option Errno × Option Errno × (ℤ → D)
  | 0, _, error, allerror, disk => (error, allerror, disk)
  | rounds + 1, i, error, allerror, disk =>
      if ws i = .null then (error, some .eio, disk)
      else
        let error := if wait then (ws i).error wait else error
        cgLoop place wait ws gd rounds (i + 1) error allerror ((ws i).put (place i) (gd i) disk)

/-- The end of `ext2_cgupdate`: `error` counts where there is no other. -/
def foldErrors (r : Option Errno × Option Errno × (ℤ → D)) : Option Errno × (ℤ → D) :=
  (if r.2.1 = none then r.1 else r.2.1, r.2.2)

/-- `ext2_cgupdate`: `w` is the write of the superblock, `ws i` that of descriptor block `i`. -/
def ext2Cgupdate (fs : Geometry) (firstDblock : BitVec 32) (wait : Bool) (w : BufWrite)
    (ws : ℕ → BufWrite) (sb : D) (gd : ℕ → D) (disk : ℤ → D) : Option Errno × (ℤ → D) :=
  foldErrors (cgLoop (fs.descWriteAt firstDblock) wait ws gd fs.descRounds 0 none
    (ext2Sbupdate wait w sb disk).1 (ext2Sbupdate wait w sb disk).2)

end Functions

/-! ### What the writes leave on the device -/

section Disk

variable {D : Type} {place : ℕ → ℤ} {wait : Bool} {ws : ℕ → BufWrite} {gd : ℕ → D}

@[simp] theorem put_ok (b : ℤ) (image : D) (disk : ℤ → D) :
    BufWrite.ok.put b image disk = Function.update disk b image := rfl

theorem put_of_ne {w : BufWrite} {b a : ℤ} (h : a ≠ b) (image : D) (disk : ℤ → D) :
    w.put b image disk a = disk a := by
  unfold BufWrite.put
  split
  · exact Function.update_of_ne h _ _
  · rfl

/-- The loop writes to the descriptor blocks only. -/
theorem cgLoop_frame (rounds i : ℕ) (error allerror : Option Errno) (disk : ℤ → D) {a : ℤ}
    (ha : ∀ j, i ≤ j → j < i + rounds → a ≠ place j) :
    (cgLoop place wait ws gd rounds i error allerror disk).2.2 a = disk a := by
  induction rounds generalizing i error disk with
  | zero => rfl
  | succ rounds ih =>
    unfold cgLoop
    split
    · rfl
    · rw [ih]
      · exact put_of_ne (ha i le_rfl (by omega)) _ _
      · intro j hj hj'
        exact ha j (by omega) (by omega)

/-- Where every write succeeds, each descriptor block holds its part of the table. -/
theorem cgLoop_stored {n : ℕ} (hinj : ∀ j k, j < n → k < n → place j = place k → j = k)
    (rounds i : ℕ) (hn : i + rounds ≤ n) (error allerror : Option Errno) (disk : ℤ → D) {j : ℕ}
    (hj : i ≤ j) (hj' : j < i + rounds) :
    (cgLoop place wait (fun _ => .ok) gd rounds i error allerror disk).2.2 (place j) = gd j := by
  induction rounds generalizing i error disk with
  | zero => omega
  | succ rounds ih =>
    unfold cgLoop
    rw [if_neg (by decide)]
    by_cases hij : i = j
    · subst hij
      rw [cgLoop_frame]
      · exact Function.update_self _ _ _
      · intro k hk hk' heq
        have := hinj i k (by omega) (by omega) heq
        omega
    · exact ih (i + 1) (by omega) _ _ (by omega) (by omega)

theorem foldErrors_disk (r : Option Errno × Option Errno × (ℤ → D)) :
    (foldErrors r).2 = r.2.2 := rfl

theorem foldErrors_error (r : Option Errno × Option Errno × (ℤ → D)) :
    (foldErrors r).1 = if r.2.1 = none then r.1 else r.2.1 := rfl

/-- The device after `ext2_cgupdate`. -/
theorem cgupdate_disk (fs : Geometry) (firstDblock : BitVec 32) (w : BufWrite) (sb : D)
    (disk : ℤ → D) :
    (ext2Cgupdate fs firstDblock wait w ws sb gd disk).2 =
      (cgLoop (fs.descWriteAt firstDblock) wait ws gd fs.descRounds 0 none
        (ext2Sbupdate wait w sb disk).1 (ext2Sbupdate wait w sb disk).2).2.2 := by
  rw [ext2Cgupdate, foldErrors_disk]

/-- What the loop of `compute_sb_data` reads from a device that gives every block. -/
theorem loadDescs_ok (fs : Geometry) (disk : ℤ → D) (rounds i : ℕ) :
    loadDescs (fun b => .ok (disk b)) fs rounds i =
      .ok ((List.range' i rounds).map fun j => disk (fs.descReadAt j)) := by
  induction rounds generalizing i with
  | zero => rfl
  | succ rounds ih =>
    unfold loadDescs
    rw [ih]
    rfl

end Disk

/-! ### The writer and the reader -/

section ReadsBack

variable {es : Superblock} {fs : Geometry}

/-- A device block of the descriptor area: one of the `e2fs_gdbcount` blocks of the volume after the
superblock's. -/
def Geometry.InDescArea (fs : Geometry) (bcount : BitVec 32) (a : ℤ) : Prop :=
  ∃ b : ℕ, a = fs.toDb b ∧ fs.logicSbBlock < b ∧ b ≤ fs.logicSbBlock + fs.descRounds ∧
    b < bcount.toNat

/-- `ext2_cgupdate` and `compute_sb_data` agree: every descriptor block is written where it is read,
in the descriptor area, and a table that was written is read back. -/
structure ReadsBack (D : Type) (es : Superblock) (fs : Geometry) : Prop where
  place : ∀ i < fs.descRounds, fs.descWriteAt es.e2fs_first_dblock i = fs.descReadAt i ∧
    fs.InDescArea es.e2fs_bcount (fs.descWriteAt es.e2fs_first_dblock i)
  table : ∀ (wait : Bool) (sb : D) (gd : ℕ → D) (disk : ℤ → D),
    loadDescs (fun b => .ok ((ext2Cgupdate fs es.e2fs_first_dblock wait .ok (fun _ => .ok) sb gd
      disk).2 b)) fs fs.descRounds 0 = .ok ((List.range fs.descRounds).map gd)

theorem descRounds_lt (fs : Geometry) : fs.descRounds < 2 ^ 31 := by
  unfold Geometry.descRounds i32
  split <;> omega

theorem toDb_injective (fs : Geometry) : Function.Injective fs.toDb := by
  intro a b h
  unfold Geometry.toDb at h
  exact mul_right_cancel₀ (by positivity) h

/-- The writer's address of a descriptor block where the superblock names its own block. -/
theorem descWriteAt_eq (hfirst : es.e2fs_first_dblock.toNat = fs.logicSbBlock) {i : ℕ}
    (hi : i < fs.descRounds) :
    fs.descWriteAt es.e2fs_first_dblock i = fs.descReadAt i := by
  have hlt := descRounds_lt fs
  have hle : fs.logicSbBlock ≤ 1 := by
    unfold Geometry.logicSbBlock
    split <;> omega
  rw [Geometry.descWriteAt, Geometry.descReadAt, hfirst, u32_of_lt (by omega)]
  congr 1
  push_cast
  ring

/-- **The exact condition.**  The descriptor table is written where it is read exactly when there is
none, or `e2fs_first_dblock` is the block that the block size puts the superblock in and the table
ends inside the volume. -/
theorem readsBack_iff {D : Type} {ronly : Bool} {bread : ℤ → Except Errno D} {mount : SbData D}
    (hcheck : ext2CheckSbCompat es ronly = 0) (hmount : computeSbData bread es = .ok mount) :
    ReadsBack D es mount.toGeometry ↔
      mount.descRounds = 0 ∨
        es.e2fs_first_dblock.toNat = (if es.e2fs_log_bsize = 0 then 1 else 0) ∧
          (if es.e2fs_log_bsize = 0 then 1 else 0) + mount.descRounds < es.e2fs_bcount.toNat := by
  have hd := sbGeometry_ok (computeSbData_ok hmount).1
  have hlogic : (if es.e2fs_log_bsize = 0 then 1 else 0) = mount.logicSbBlock := by
    have hle := (checkSbCompat_ok hcheck).1
    rw [Geometry.logicSbBlock, hd.bsize, hd.bshift, pow_add]
    by_cases h0 : es.e2fs_log_bsize = 0
    · rw [if_pos h0, h0]
      rfl
    · rw [if_neg h0]
      have hpos : 1 ≤ es.e2fs_log_bsize.toNat := by
        apply Nat.pos_of_ne_zero
        intro hz
        exact h0 (BitVec.eq_of_toNat_eq hz)
      have hpow : 2 ^ 1 ≤ 2 ^ es.e2fs_log_bsize.toNat := Nat.pow_le_pow_right (by decide) hpos
      rw [if_pos (by unfold SBSIZE; omega)]
  rw [hlogic]
  have hlt := descRounds_lt mount.toGeometry
  constructor
  · intro h
    by_cases h0 : mount.descRounds = 0
    · exact Or.inl h0
    · right
      obtain ⟨hplace, -⟩ := h.place 0 (by omega)
      obtain ⟨hlast, b, hb, -, -, hcount⟩ := h.place (mount.descRounds - 1) (by omega)
      have hfirst := toDb_injective _ hplace
      rw [hlast] at hb
      have hblock := toDb_injective _ hb
      have hlt32 := es.e2fs_first_dblock.isLt
      have hle : mount.logicSbBlock ≤ 1 := by
        rw [← hlogic]
        split <;> omega
      unfold u32 at hfirst
      constructor
      · omega
      · omega
  · rintro (h0 | ⟨hfirst, hroom⟩)
    · constructor
      · intro i hi
        omega
      · intro wait sb gd disk
        rw [h0]
        rfl
    · constructor
      · intro i hi
        rw [descWriteAt_eq hfirst hi]
        refine ⟨rfl, mount.logicSbBlock + i + 1, ?_, by omega, by omega, by omega⟩
        rw [Geometry.descReadAt]
        push_cast
        rfl
      · intro wait sb gd disk
        rw [loadDescs_ok, List.range_eq_range']
        apply congrArg Except.ok
        apply List.map_congr_left
        intro j hj
        have hj' : j < mount.descRounds := by simpa [List.mem_range'] using hj
        have hinj : ∀ a b, a < mount.descRounds → b < mount.descRounds →
            mount.descWriteAt es.e2fs_first_dblock a = mount.descWriteAt es.e2fs_first_dblock b →
              a = b := by
          intro a b ha hb hab
          rw [descWriteAt_eq hfirst ha, descWriteAt_eq hfirst hb] at hab
          have := toDb_injective _ hab
          omega
        rw [← descWriteAt_eq hfirst hj', cgupdate_disk]
        exact cgLoop_stored hinj mount.descRounds 0 (Nat.zero_add _).le _ _ _ (Nat.zero_le _)
          (by rwa [Nat.zero_add])

end ReadsBack

theorem plainSb_readsBack :
    ReadsBack Unit plainSb plainMount.toGeometry ↔
      plainMount.descRounds = 0 ∨
        plainSb.e2fs_first_dblock.toNat = (if plainSb.e2fs_log_bsize = 0 then 1 else 0) ∧
          (if plainSb.e2fs_log_bsize = 0 then 1 else 0) + plainMount.descRounds <
            plainSb.e2fs_bcount.toNat := by
  have hmount : computeSbData (fun _ => .ok ()) plainSb = .ok plainMount := by decide +kernel
  have hcheck : ext2CheckSbCompat plainSb false = 0 := by decide +kernel
  exact readsBack_iff hcheck hmount

/-- A volume of 1 KiB blocks that says its first data block is block 0. -/
def zeroFirst : Superblock := { plainSb with e2fs_first_dblock := 0 }

/-- It is mounted, and the first write of its descriptor table goes over its superblock. -/
theorem zeroFirst_overwrites :
    ext2CheckSbCompat zeroFirst false = 0 ∧
      computeSbData (fun _ => .ok ()) zeroFirst = .ok plainMount ∧
      plainMount.descWriteAt zeroFirst.e2fs_first_dblock 0 = SBLOCK ∧
      ¬ReadsBack Unit zeroFirst plainMount.toGeometry := by
  have hwrite : plainMount.descWriteAt zeroFirst.e2fs_first_dblock 0 = SBLOCK := by decide +kernel
  refine ⟨by decide +kernel, by decide +kernel, hwrite, ?_⟩
  intro h
  have hplace := (h.place 0 (by decide +kernel)).1
  rw [hwrite] at hplace
  exact absurd hplace (by decide +kernel)

end Ext2fs
