import Ext2fs.Fsck.Inodes

/-!
# What a repair of an inode writes

The checker repairs an inode through the pointer that `ginode` returns: it changes a field of the
structure, or assigns the whole structure, and the block goes back to where it was read.

* `Repair` — the parts of `struct ext2fs_dinode` that are changed;
* `repair` — the change in the buffer, and the device after the block is written;
* `Covered` — what is written lies in the slot of the inode;
* **`repair_iff`** — the repairs that leave the other inodes alone;
* `clear_128`, `clear_256` — clearing an inode, for the two sizes.
-/

namespace Ext2fs.Fsck

/-- A repair: `clearinode`, or a field that is changed. -/
inductive Repair where
  | clear
  | mode
  | size
  | atime
  | ctime
  | mtime
  | dtime
  | nlink
  | nblock
  | block (k : Fin 15)
  | sizeHigh
  deriving DecidableEq, Repr

/-- The offset of what is written in `struct ext2fs_dinode`. -/
def Repair.off : Repair → ℕ
  | clear => 0
  | mode => 0
  | size => 4
  | atime => 8
  | ctime => 12
  | mtime => 16
  | dtime => 20
  | nlink => 26
  | nblock => 28
  | block k => 40 + 4 * k
  | sizeHigh => 108

/-- Its length. -/
def Repair.len : Repair → ℕ
  | clear => DINODE_STRUCT
  | mode => 2
  | nlink => 2
  | _ => 4

/-- The bytes that are written; `zino` is a structure of zeros. -/
def Repair.bytes (new : ℕ → UInt8) : Repair → ℕ → UInt8
  | clear, _ => 0
  | _, o => new o

section

variable (v : Volume)

/-- The buffer with the repair, where the structure starts at `p` in it. -/
def Repair.write (r : Repair) (new : ℕ → UInt8) (p : ℤ) (buf : ℤ → UInt8) : ℤ → UInt8 := fun o =>
  if p + r.off ≤ o ∧ o < p + r.off + r.len then r.bytes new (o - (p + r.off)).toNat else buf o

/-- A repair: `ginode`, the change in the buffer, and the block written back. -/
def repair (i : ℕ) (r : Repair) (new : ℕ → UInt8) (s : InoBuf) (dev : ℤ → UInt8) :
    Option (ℤ → UInt8) :=
  (ginode v i s).map fun g =>
    let buf := r.write new (g.1 - g.2.addr) fun o => dev (g.2.addr + o)
    fun x => if g.2.addr ≤ x ∧ x < g.2.addr + v.bsize then buf (x - g.2.addr) else dev x

/-- The bytes of the inode tables. -/
def InTable (x : ℤ) : Prop :=
  ∃ g < v.gcount, ((v.tables g * v.bsize : ℕ) : ℤ) ≤ x ∧
    x < ((v.tables g * v.bsize + v.ipg * v.isize : ℕ) : ℤ)

/-- The bytes of the slot of an inode. -/
def InSlot (i : ℕ) (x : ℤ) : Prop := (v.slotAddr i : ℤ) ≤ x ∧ x < v.slotAddr i + v.isize

/-- A repair leaves every byte of the inode tables alone that is not in the slot of the inode, whatever
inodes were looked at before and whatever the device holds. -/
def OnlySlot (i : ℕ) (r : Repair) : Prop :=
  ∀ is, (∀ j ∈ is, v.Valid j) → ∀ s, ginodes v is .reset = some s →
    ∀ (new : ℕ → UInt8) (dev dev' : ℤ → UInt8), repair v i r new s dev = some dev' →
      ∀ x, InTable v x → ¬InSlot v i x → dev' x = dev x

/-- What is written lies in the slot, as far as it lies in the buffer and in an inode table; the buffer
may have been filled for another inode. -/
def Covered (i : ℕ) (r : Repair) : Prop :=
  ∀ j, v.Valid j → (j - 1) / v.ipb = (i - 1) / v.ipb → ∀ o : ℕ,
    (i - 1) % v.ipb * DINODE_STRUCT + r.off ≤ o →
    o < (i - 1) % v.ipb * DINODE_STRUCT + r.off + r.len → o < v.bsize →
    InTable v (v.blockAddr j + o) → InSlot v i (v.blockAddr j + o)

variable {i : ℕ} {r : Repair}

theorem bytes_zero (r : Repair) (o : ℕ) : r.bytes (fun _ => 0) o = 0 := by
  cases r <;> rfl

/-- What `ginode` returns after other calls: the structure with the index of the inode in the block of a
number that is looked for there. -/
theorem ginode_block (hi : v.Valid i) {is : List ℕ} (his : ∀ j ∈ is, v.Valid j) {s : InoBuf}
    (hs : ginodes v is .reset = some s) :
    ∃ j, v.Valid j ∧ (j - 1) / v.ipb = (i - 1) / v.ipb ∧
      ginode v i s =
        some (v.blockAddr j + ((i - 1) % v.ipb * DINODE_STRUCT : ℕ), InoBuf.loaded v j) := by
  obtain ⟨s', hs', hloaded⟩ := ginodes_loaded v his (.inl rfl)
  rw [hs] at hs'
  cases hs'
  rw [ginode_eq v hi]
  dsimp only
  split
  next => exact ⟨i, hi, rfl, rfl⟩
  next hwin =>
    rcases hloaded with rfl | ⟨j, hj, rfl⟩
    · exact absurd (.inl rfl) hwin
    · refine ⟨j, hj, ?_, rfl⟩
      have hpos := v.ipb_pos
      replace hwin : ¬((j - 1) / v.ipb * v.ipb + 1 = 0 ∨ i < (j - 1) / v.ipb * v.ipb + 1 ∨
        (j - 1) / v.ipb * v.ipb + 1 + v.ipb ≤ i) := hwin
      symm
      rw [Nat.div_eq_iff hpos]
      omega

/-- Every number that is looked for in the block may have filled the buffer. -/
theorem ginode_block_of (hi : v.Valid i) {j : ℕ} (hj : v.Valid j)
    (hsame : (j - 1) / v.ipb = (i - 1) / v.ipb) :
    ∃ s, ginodes v [j] .reset = some s ∧
      ginode v i s =
        some (v.blockAddr j + ((i - 1) % v.ipb * DINODE_STRUCT : ℕ), InoBuf.loaded v j) := by
  refine ⟨InoBuf.loaded v j, ?_, ?_⟩
  · show (ginode v j .reset).bind _ = _
    rw [ginode_eq v hj]
    rfl
  · rw [ginode_eq v hi]
    dsimp only
    rw [if_neg]
    · rfl
    · have hpos := v.ipb_pos
      have hi1 := valid_pos v hi
      have hdiv := Nat.div_add_mod (i - 1) v.ipb
      have hlt := Nat.mod_lt (i - 1) hpos
      show ¬((j - 1) / v.ipb * v.ipb + 1 = 0 ∨ i < (j - 1) / v.ipb * v.ipb + 1 ∨
        (j - 1) / v.ipb * v.ipb + 1 + v.ipb ≤ i)
      rw [hsame, Nat.mul_comm]
      omega

/-- The device after a repair in the block at `addr`. -/
theorem repair_eq {s : InoBuf} {addr : ℤ} {p : ℕ} {new : ℕ → UInt8} {dev : ℤ → UInt8} {s' : InoBuf}
    (h : ginode v i s = some (addr + p, s')) (haddr : s'.addr = addr) :
    repair v i r new s dev = some fun x =>
      if (addr ≤ x ∧ x < addr + v.bsize) ∧
          (addr + (p + r.off : ℕ) ≤ x ∧ x < addr + (p + r.off + r.len : ℕ)) then
        r.bytes new (x - (addr + (p + r.off : ℕ))).toNat
      else dev x := by
  unfold repair
  rw [h, Option.map_some, Option.some.injEq]
  funext x
  dsimp only
  rw [haddr]
  by_cases hin : addr ≤ x ∧ x < addr + v.bsize
  swap
  · rw [if_neg hin, if_neg fun hc => hin hc.1]
  rw [if_pos hin]
  unfold Repair.write
  have hp : addr + (p : ℤ) - addr = p := by omega
  rw [hp]
  by_cases hw : addr + (p + r.off : ℕ) ≤ x ∧ x < addr + (p + r.off + r.len : ℕ)
  · rw [if_pos (show (p : ℤ) + r.off ≤ x - addr ∧ x - addr < (p : ℤ) + r.off + r.len by omega),
      if_pos ⟨hin, hw⟩]
    congr 2
    omega
  · rw [if_neg (show ¬((p : ℤ) + r.off ≤ x - addr ∧ x - addr < (p : ℤ) + r.off + r.len) by omega),
      if_neg fun hc => hw hc.2]
    show dev (addr + (x - addr)) = dev x
    rw [add_sub_cancel]

theorem OnlySlot.covered (hi : v.Valid i) (h : OnlySlot v i r) : Covered v i r := by
  intro j hj hsame o hlo hhi hB htable
  by_contra hslot
  obtain ⟨s, hs, hget⟩ := ginode_block_of v hi hj hsame
  -- a device that holds another byte there
  have hkeep := h [j] (by simpa using hj) s hs (fun _ => 0) (fun _ => 1) _
    (repair_eq v hget rfl) _ htable hslot
  rw [if_pos ⟨⟨by omega, by omega⟩, by omega, by omega⟩] at hkeep
  rw [bytes_zero] at hkeep
  exact absurd hkeep (by decide)

theorem Covered.onlySlot (hi : v.Valid i) (h : Covered v i r) : OnlySlot v i r := by
  intro is his s hs new dev dev' hrep x htable hslot
  obtain ⟨j, hj, hsame, hget⟩ := ginode_block v hi his hs
  rw [repair_eq v hget rfl] at hrep
  generalize hp : (i - 1) % v.ipb * DINODE_STRUCT = p at hrep
  have hnot : ¬((v.blockAddr j ≤ x ∧ x < v.blockAddr j + v.bsize) ∧
      (v.blockAddr j + (p + r.off : ℕ) ≤ x ∧ x < v.blockAddr j + (p + r.off + r.len : ℕ))) := by
    rintro ⟨⟨hge, hlt⟩, hlo, hhi⟩
    obtain ⟨o, ho⟩ : ∃ o : ℕ, x = v.blockAddr j + o := ⟨(x - v.blockAddr j).toNat, by omega⟩
    have hcov := h j hj hsame o
    rw [hp, ← ho] at hcov
    exact hslot (hcov (by omega) (by omega) (by omega) htable)
  rw [← Option.some.inj hrep]
  exact if_neg hnot

/-! ### Volumes of ordinary shape -/

/-- What is written lies in the part of the block that the slot takes, or behind the block. -/
def InPart (i : ℕ) (r : Repair) : Prop :=
  v.bsize ≤ (i - 1) % v.ipb * DINODE_STRUCT + r.off ∨
    (i - 1) % v.ipb * v.isize ≤ (i - 1) % v.ipb * DINODE_STRUCT + r.off ∧
      min ((i - 1) % v.ipb * DINODE_STRUCT + r.off + r.len) v.bsize ≤
        ((i - 1) % v.ipb + 1) * v.isize

instance (i : ℕ) (r : Repair) : Decidable (InPart v i r) := inferInstanceAs (Decidable (_ ∨ _))

theorem Repair.len_pos (r : Repair) : 0 < r.len := by
  cases r <;> simp [Repair.len, DINODE_STRUCT]

theorem valid_group (hi : v.Valid i) : v.inoToCg i < v.gcount := by
  have h1 := valid_pos v hi
  have hle : i ≤ v.maxino := by
    by_contra hlt
    exact hi (.inr (by omega))
  have hmax : v.maxino ≤ v.gcount * v.ipg := by
    unfold Volume.maxino u32
    omega
  unfold Volume.inoToCg
  rw [Nat.div_lt_iff_lt_mul v.ipg_pos]
  omega

/-- The block of an inode lies in its group's table. -/
theorem block_inTable (h : v.Regular) (hi : v.Valid i) {o : ℕ} (ho : o < v.bsize) :
    InTable v (v.blockAddr i + o) := by
  have hgroup := valid_group v hi
  obtain ⟨c, hc⟩ := h.ipb
  have hlt := Nat.mod_lt (i - 1) v.ipg_pos
  have hmod : (i - 1) % v.ipg % v.ipb = (i - 1) % v.ipb := Nat.mod_mod_of_dvd _ h.ipb
  have hsplit := Nat.div_add_mod ((i - 1) % v.ipg) v.ipb
  rw [hmod] at hsplit
  -- the whole block is before the end of the table
  have hx : (i - 1) % v.ipg / v.ipb < c := by
    rw [Nat.div_lt_iff_lt_mul v.ipb_pos, Nat.mul_comm, ← hc]
    exact hlt
  have hend : (v.ipb * ((i - 1) % v.ipg / v.ipb)) * v.isize + v.bsize ≤ v.ipg * v.isize := by
    have hle : v.ipb * ((i - 1) % v.ipg / v.ipb) + v.ipb ≤ v.ipg :=
      (Nat.mul_le_mul_left v.ipb hx).trans_eq hc.symm
    rw [v.bsize_eq, ← Nat.add_mul]
    exact Nat.mul_le_mul_right _ hle
  have hmul : (i - 1) % v.ipg * v.isize =
      v.ipb * ((i - 1) % v.ipg / v.ipb) * v.isize + (i - 1) % v.ipb * v.isize := by
    rw [← Nat.add_mul, hsplit]
  have haddr : v.blockAddr i =
      (v.tables (v.inoToCg i) * v.bsize + v.ipb * ((i - 1) % v.ipg / v.ipb) * v.isize : ℕ) := by
    rw [h.blockAddr v]
    unfold Volume.slotAddr
    rw [hmul]
    omega
  rw [haddr, ← Nat.cast_add]
  refine ⟨_, hgroup, Int.ofNat_le.2 ?_, Int.ofNat_lt.2 ?_⟩
  · exact (Nat.le_add_right _ _).trans (Nat.le_add_right _ _)
  · rw [Nat.add_assoc]
    exact Nat.add_lt_add_left ((Nat.add_lt_add_left ho _).trans_le hend) _

/-- On a volume of ordinary shape, what is written lies in the slot exactly when it lies in the slot's
part of the block. -/
theorem covered_regular (h : v.Regular) (hi : v.Valid i) : Covered v i r ↔ InPart v i r := by
  have hlen := r.len_pos
  have haddr := h.blockAddr v i
  have hslot : ∀ o : ℕ, InSlot v i (v.blockAddr i + o) ↔
      (i - 1) % v.ipb * v.isize ≤ o ∧ o < ((i - 1) % v.ipb + 1) * v.isize := by
    intro o
    unfold InSlot
    rw [haddr, Nat.add_mul, Nat.one_mul]
    constructor <;> intro hx <;> constructor <;> omega
  have hpart : ((i - 1) % v.ipb + 1) * v.isize ≤ v.bsize := by
    rw [v.bsize_eq]
    exact Nat.mul_le_mul_right _ (Nat.mod_lt _ v.ipb_pos)
  constructor
  · intro hcov
    have hin : ∀ o : ℕ, (i - 1) % v.ipb * DINODE_STRUCT + r.off ≤ o →
        o < (i - 1) % v.ipb * DINODE_STRUCT + r.off + r.len → o < v.bsize →
        (i - 1) % v.ipb * v.isize ≤ o ∧ o < ((i - 1) % v.ipb + 1) * v.isize := fun o hlo hhi hB =>
      (hslot o).1 (hcov i hi rfl o hlo hhi hB (block_inTable v h hi hB))
    unfold InPart
    generalize (i - 1) % v.ipb * DINODE_STRUCT + r.off = p at *
    by_cases hp : v.bsize ≤ p
    · exact .inl hp
    · have hfirst := hin p le_rfl (by omega) (by omega)
      have hlast := hin (min (p + r.len) v.bsize - 1) (by omega) (by omega) (by omega)
      exact .inr ⟨hfirst.1, by omega⟩
  · intro hpart' j hj hsame o hlo hhi hB _
    rw [h.blockAddr_congr v hsame, hslot]
    unfold InPart at hpart'
    generalize (i - 1) % v.ipb * DINODE_STRUCT + r.off = p at *
    rcases hpart' with hbehind | ⟨hge, hle⟩
    · omega
    · omega

/-- **The repairs that leave the other inodes alone** are those whose bytes lie in the slot of the inode,
as far as they lie in the buffer: on a volume of ordinary shape, those that lie in its part of the
block. -/
theorem repair_iff (hi : v.Valid i) :
    (OnlySlot v i r ↔ Covered v i r) ∧ (v.Regular → (OnlySlot v i r ↔ InPart v i r)) := by
  have hiff : OnlySlot v i r ↔ Covered v i r := ⟨OnlySlot.covered v hi, Covered.onlySlot v hi⟩
  exact ⟨hiff, fun h => hiff.trans (covered_regular v h hi)⟩

/-- Clearing an inode of 128 bytes reaches into the next one, unless the structure starts behind the
block. -/
theorem clear_128 (hsize : v.isize = 128) :
    InPart v i .clear ↔ v.bsize ≤ (i - 1) % v.ipb * DINODE_STRUCT := by
  have hk := Nat.mod_lt (i - 1) v.ipb_pos
  obtain ⟨hB, -⟩ := v.cases
  have hipb : v.ipb = v.bsize / 128 := by
    unfold Volume.ipb
    rw [hsize]
  unfold InPart
  show _ ≤ _ + 0 ∨ _ ≤ _ + 0 ∧ min (_ + 0 + DINODE_STRUCT) _ ≤ _ ↔ _
  rw [hipb] at *
  unfold DINODE_STRUCT
  rcases hB with ⟨h, -⟩ | ⟨h, -⟩ | ⟨h, -⟩ <;> rw [h, hsize] at * <;> omega

/-- Clearing an inode of 256 bytes stays in its slot for the first inode of a block alone. -/
theorem clear_256 (hsize : v.isize = 256) : InPart v i .clear ↔ (i - 1) % v.ipb = 0 := by
  have hk := Nat.mod_lt (i - 1) v.ipb_pos
  obtain ⟨hB, -⟩ := v.cases
  have hipb : v.ipb = v.bsize / 256 := by
    unfold Volume.ipb
    rw [hsize]
  unfold InPart
  show _ ≤ _ + 0 ∨ _ ≤ _ + 0 ∧ min (_ + 0 + DINODE_STRUCT) _ ≤ _ ↔ _
  rw [hipb] at *
  unfold DINODE_STRUCT
  rcases hB with ⟨h, -⟩ | ⟨h, -⟩ | ⟨h, -⟩ <;> rw [h, hsize] at * <;> omega

end

/-- Clearing the root directory clears bytes of the inode behind it too. -/
theorem clear_root : ¬OnlySlot smallVolume 2 .clear := by
  intro h
  have hcov := OnlySlot.covered smallVolume (by decide) h
  rw [covered_regular smallVolume smallVolume_regular (by decide)] at hcov
  exact absurd hcov (by decide)

/-- The mode of the first inode of a block is changed in place. -/
theorem mode_seventeen : OnlySlot smallVolume 17 .mode :=
  ((repair_iff smallVolume (by decide)).2 smallVolume_regular).2 (by decide)

end Ext2fs.Fsck
