import Ext2fs.Basic

/-!
# Bitmaps of blocks and inodes

A bitmap is an array of bytes; the bit of a block or inode is at `i % NBBY` in byte `i / NBBY`.  The
macros of `param.h` change one bit.  The loops of `ext2_clusteracct` carry a byte and a mask of their
own from one bit to the next.

* `isclr_setbit`, `isclr_clrbit` — the macros on all bits;
* `BitCursor` — the place of a loop, with `next_start` and `prev_start` for one round;
* `ffs_not_spec`, `ext2Fls_spec` — the lowest clear bit and the highest set bit of a byte;
* `memcchr_eq_some`, `memcchr_eq_none` — the first byte that is not full.
-/

namespace Ext2fs

/-- A bitmap, by its bytes. -/
abbrev Bitmap := ℕ → BitVec 8

namespace Bitmap

/-- `isset` -/
def isset (map : Bitmap) (i : ℕ) : Bool := map (i / NBBY) &&& (1#8 <<< (i % NBBY)) != 0#8

/-- `isclr` -/
def isclr (map : Bitmap) (i : ℕ) : Bool := map (i / NBBY) &&& (1#8 <<< (i % NBBY)) == 0#8

/-- `setbit` -/
def setbit (map : Bitmap) (i : ℕ) : Bitmap :=
  Function.update map (i / NBBY) (map (i / NBBY) ||| (1#8 <<< (i % NBBY)))

/-- `clrbit` -/
def clrbit (map : Bitmap) (i : ℕ) : Bitmap :=
  Function.update map (i / NBBY) (map (i / NBBY) &&& ~~~(1#8 <<< (i % NBBY)))

variable {map : Bitmap} {i j : ℕ}

theorem and_mask_eq_zero (v : BitVec 8) (k : Fin 8) :
    (v &&& (1#8 <<< k.val) == 0#8) = !v.getLsbD k := by
  revert v k
  decide

theorem isclr_eq (map : Bitmap) (i : ℕ) : map.isclr i = !(map (i / NBBY)).getLsbD (i % NBBY) :=
  and_mask_eq_zero _ ⟨i % NBBY, Nat.mod_lt _ (by decide)⟩

theorem isset_eq_not (map : Bitmap) (i : ℕ) : map.isset i = !map.isclr i := rfl

theorem isset_eq (map : Bitmap) (i : ℕ) : map.isset i = (map (i / NBBY)).getLsbD (i % NBBY) := by
  rw [isset_eq_not, isclr_eq, Bool.not_not]

/-- Two bits in one byte are at different places of it. -/
theorem mod_ne_of_div_eq (hne : j ≠ i) (hdiv : j / NBBY = i / NBBY) : j % NBBY ≠ i % NBBY := by
  unfold NBBY at *
  omega

theorem isclr_setbit (map : Bitmap) (i : ℕ) :
    (map.setbit i).isclr = Function.update map.isclr i false := by
  funext j
  have hmod : i % NBBY < 8 := Nat.mod_lt _ (by decide)
  have hmod' : j % NBBY < 8 := Nat.mod_lt _ (by decide)
  rw [isclr_eq]
  rcases eq_or_ne j i with rfl | hne
  · simp [setbit, hmod]
  · rw [Function.update_of_ne hne, isclr_eq]
    by_cases hdiv : j / NBBY = i / NBBY
    · have hk := mod_ne_of_div_eq hne hdiv
      rw [setbit, hdiv, Function.update_self]
      simp only [BitVec.getLsbD_or, BitVec.getLsbD_shiftLeft, hmod', BitVec.getLsbD_one]
      congr 1
      have : j % NBBY - i % NBBY ≠ 0 ∨ j % NBBY < i % NBBY := by omega
      rcases this with h | h <;> simp [h]
    · rw [setbit, Function.update_of_ne hdiv]

theorem isclr_clrbit (map : Bitmap) (i : ℕ) :
    (map.clrbit i).isclr = Function.update map.isclr i true := by
  funext j
  have hmod : i % NBBY < 8 := Nat.mod_lt _ (by decide)
  have hmod' : j % NBBY < 8 := Nat.mod_lt _ (by decide)
  rw [isclr_eq]
  rcases eq_or_ne j i with rfl | hne
  · simp [clrbit, hmod]
  · rw [Function.update_of_ne hne, isclr_eq]
    by_cases hdiv : j / NBBY = i / NBBY
    · have hk := mod_ne_of_div_eq hne hdiv
      rw [clrbit, hdiv, Function.update_self]
      simp only [BitVec.getLsbD_and, BitVec.getLsbD_not, BitVec.getLsbD_shiftLeft, hmod',
        BitVec.getLsbD_one]
      congr 1
      have : j % NBBY - i % NBBY ≠ 0 ∨ j % NBBY < i % NBBY := by omega
      rcases this with h | h <;> simp [h]
    · rw [clrbit, Function.update_of_ne hdiv]

end Bitmap

/-! ### The place of a loop -/

/-- `loc` and `bit` of a loop over the bits of a map. -/
structure BitCursor where
  loc : ℕ
  bit : ℕ
  deriving DecidableEq, Repr

namespace BitCursor

/-- Where the loops start for the bit `i`. -/
def start (i : ℕ) : BitCursor := ⟨i / NBBY, 1 <<< (i % NBBY)⟩

/-- From the bit `i` to the next one. -/
def next (cur : BitCursor) (i : ℕ) : BitCursor :=
  if i &&& (NBBY - 1) ≠ NBBY - 1 then { cur with bit := cur.bit <<< 1 }
  else { loc := cur.loc + 1, bit := 1 }

/-- From the bit `i` to the one before it. -/
def prev (cur : BitCursor) (i : ℕ) : BitCursor :=
  if i &&& (NBBY - 1) ≠ 0 then { cur with bit := cur.bit >>> 1 }
  else { loc := cur.loc - 1, bit := 1 <<< (NBBY - 1) }

/-- `bbp[loc] & bit` -/
def taken (cur : BitCursor) (map : Bitmap) : Bool := (map cur.loc).toNat &&& cur.bit != 0

theorem and_low (i : ℕ) : i &&& (NBBY - 1) = i % NBBY := Nat.and_two_pow_sub_one_eq_mod i 3

theorem next_start (i : ℕ) : (start i).next i = start (i + 1) := by
  rw [next, and_low]
  unfold start NBBY
  split
  · rw [show (i + 1) % 8 = i % 8 + 1 by omega, show (i + 1) / 8 = i / 8 by omega, Nat.shiftLeft_add]
  · rw [show (i + 1) % 8 = 0 by omega, show (i + 1) / 8 = i / 8 + 1 by omega]
    rfl

theorem prev_start (i : ℕ) : (start (i + 1)).prev (i + 1) = start i := by
  rw [prev, and_low]
  unfold start NBBY
  split
  · rw [show (i + 1) % 8 = i % 8 + 1 by omega, show (i + 1) / 8 = i / 8 by omega, Nat.shiftLeft_add]
    simp [Nat.shiftLeft_shiftRight]
  · rw [show i % 8 = 7 by omega, show (i + 1) / 8 - 1 = i / 8 by omega]

theorem taken_byte (v : BitVec 8) (k : Fin 8) :
    (v.toNat &&& (1 <<< k.val) != 0) = v.getLsbD k := by
  revert v k
  decide

theorem taken_start (map : Bitmap) (i : ℕ) : (start i).taken map = !map.isclr i := by
  rw [Bitmap.isclr_eq, Bool.not_not]
  exact taken_byte _ ⟨i % NBBY, Nat.mod_lt _ (by decide)⟩

end BitCursor

/-! ### Whole bytes -/

/-- `howmany(bits, NBBY)` -/
def howmanyBytes (bits : ℕ) : ℕ := (bits + (NBBY - 1)) / NBBY

/-- `ffs`: the lowest set bit, numbered from 1, or 0. -/
def ffs (v : BitVec 8) : ℕ :=
  match (List.range 8).find? fun k => v.getLsbD k with
  | some k => k + 1
  | none => 0

/-- `ext2_fls`: the highest set bit, numbered from 1, or 0. -/
def ext2Fls (v : BitVec 8) : ℕ := if v = 0 then 0 else Nat.log2 v.toNat + 1

/-- `memcchr`: the first of `n` bytes from `start` on that is not `c`. -/
def memcchr (map : Bitmap) (c : BitVec 8) : ℕ → ℕ → Option ℕ
  | _, 0 => none
  | start, n + 1 => if map start ≠ c then some start else memcchr map c (start + 1) n

section Bytes

variable {map : Bitmap} {c v : BitVec 8} {start n i k loc : ℕ}

/-- `ffs(~*loc) - 1` is the lowest clear bit. -/
theorem ffs_not_spec : ∀ v : BitVec 8, v ≠ 0xff →
    ffs (~~~v) - 1 < 8 ∧ v.getLsbD (ffs (~~~v) - 1) = false ∧
      ∀ k < ffs (~~~v) - 1, v.getLsbD k = true := by
  decide +kernel

/-- `ffs(*loc) - 1` is the lowest set bit. -/
theorem ffs_spec : ∀ v : BitVec 8, v ≠ 0 →
    ffs v - 1 < 8 ∧ v.getLsbD (ffs v - 1) = true ∧ ∀ k < ffs v - 1, v.getLsbD k = false := by
  decide +kernel

/-- The bits from `ext2_fls` on are clear, and the one below is not. -/
theorem ext2Fls_spec : ∀ v : BitVec 8,
    ext2Fls v ≤ 8 ∧ (∀ k < 8, ext2Fls v ≤ k → v.getLsbD k = false) ∧
      (0 < ext2Fls v → v.getLsbD (ext2Fls v - 1) = true) := by
  decide +kernel

theorem getLsbD_full : ∀ k < 8, (0xff : BitVec 8).getLsbD k = true := by
  decide

theorem memcchr_eq_some (h : memcchr map c start n = some i) :
    start ≤ i ∧ i < start + n ∧ map i ≠ c ∧ ∀ j, start ≤ j → j < i → map j = c := by
  induction n generalizing start with
  | zero => cases h
  | succ n ih =>
    rw [memcchr] at h
    split at h
    next hne =>
      cases h
      exact ⟨le_rfl, by omega, hne, fun j _ _ => by omega⟩
    next heq =>
      obtain ⟨hle, hlt, hne, hall⟩ := ih h
      refine ⟨by omega, by omega, hne, fun j hj hji => ?_⟩
      rcases eq_or_ne j start with rfl | hjs
      · exact not_not.1 heq
      · exact hall j (by omega) hji

theorem memcchr_eq_none (h : memcchr map c start n = none) :
    ∀ j, start ≤ j → j < start + n → map j = c := by
  induction n generalizing start with
  | zero => exact fun j _ _ => by omega
  | succ n ih =>
    rw [memcchr] at h
    split at h
    next hne => cases h
    next heq =>
      intro j hj hjn
      rcases eq_or_ne j start with rfl | hjs
      · exact not_not.1 heq
      · exact ih h j (by omega) (by omega)

/-- A bit by its byte. -/
theorem isclr_byte (map : Bitmap) (loc : ℕ) (hk : k < 8) :
    map.isclr (NBBY * loc + k) = !(map loc).getLsbD k := by
  rw [Bitmap.isclr_eq]
  unfold NBBY
  rw [show (8 * loc + k) / 8 = loc by omega, show (8 * loc + k) % 8 = k by omega]

/-- A byte that is not full gives its lowest clear bit. -/
theorem lowest_clear (h : map loc ≠ 0xff) :
    map.isclr (loc * NBBY + (ffs (~~~map loc) - 1)) = true ∧ ffs (~~~map loc) - 1 < 8 ∧
      ∀ j, NBBY * loc ≤ j → j < loc * NBBY + (ffs (~~~map loc) - 1) → map.isclr j = false := by
  obtain ⟨hlt, hclear, hbelow⟩ := ffs_not_spec (map loc) h
  rw [Nat.mul_comm loc]
  refine ⟨by rw [isclr_byte map loc hlt, hclear]; rfl, hlt, fun j hj hj' => ?_⟩
  obtain ⟨k, rfl⟩ : ∃ k, j = NBBY * loc + k := ⟨j - NBBY * loc, by omega⟩
  rw [isclr_byte map loc (by omega), hbelow k (by omega)]
  rfl

theorem isclr_full (h : map (i / NBBY) = 0xff) : map.isclr i = false := by
  have hbit := getLsbD_full (i % NBBY) (Nat.mod_lt _ (by decide))
  rw [Bitmap.isclr_eq, h, hbit]
  rfl

/-- The first byte that is not full has the first clear bit. -/
theorem memcchr_first {start len : ℕ} (h : memcchr map 0xff start len = some loc) :
    ∃ bno, bno = loc * NBBY + (ffs (~~~map loc) - 1) ∧ map.isclr bno = true ∧ NBBY * start ≤ bno ∧
      bno < NBBY * (start + len) ∧ ∀ j, NBBY * start ≤ j → j < bno → map.isclr j = false := by
  obtain ⟨hle, hlt, hne, hall⟩ := memcchr_eq_some h
  obtain ⟨hclear, hbit, hbelow⟩ := lowest_clear hne
  refine ⟨_, rfl, hclear, ?_, ?_, fun j hj hj' => ?_⟩
  · unfold NBBY at *
    omega
  · unfold NBBY at *
    omega
  by_cases hin : NBBY * loc ≤ j
  · exact hbelow j hin hj'
  · refine isclr_full (hall (j / NBBY) ?_ ?_)
    · unfold NBBY at *
      omega
    · unfold NBBY at *
      omega

end Bytes

end Ext2fs
