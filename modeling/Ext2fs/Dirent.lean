import Ext2fs.Basic
import Ext2fs.Lib.Bytes

/-!
# Directory entries

A block of a directory is a chain of records.  A record is a `struct ext2fs_direct_2`: the inode
number, the length of the record, the length of the name, the file type and the name; one with the
inode number 0 is not in use.

* `e2dIno`, `e2dReclen`, `e2dNamlen`, `e2dType`, `e2dName` — the fields of the record at an offset;
* `Chain` — the records from one offset to another, with the entries that are in use;
* `Chain.congr`, `Chain.append`, `Chain.unique` — a chain depends on its own bytes, chains are joined,
  and a chain has one list of entries.
-/

namespace Ext2fs

open Bytes

/-- The longest name. -/
def EXT2FS_MAXNAMLEN : ℕ := 255

/-- `EXT2_DIR_REC_LEN` -/
def dirRecLen (namlen : ℕ) : ℕ := (namlen + 8 + 3) / 4 * 4

/-- A directory entry in use. -/
structure Dirent where
  ino : ℕ
  type : ℕ
  name : List UInt8
  deriving DecidableEq, Repr

section

variable (m : Mem) (o : ℕ)

/-- `e2d_ino` -/
def e2dIno : ℕ := le 4 m o

/-- `e2d_reclen` -/
def e2dReclen : ℕ := le 2 m (o + 4)

/-- `e2d_namlen` -/
def e2dNamlen : ℕ := le 1 m (o + 6)

/-- `e2d_type` -/
def e2dType : ℕ := le 1 m (o + 7)

/-- `e2d_name` -/
def e2dName : List UInt8 := (List.range (e2dNamlen m o)).map fun i => m (o + 8 + i)

/-- The entry at an offset. -/
def direntAt : Dirent := ⟨e2dIno m o, e2dType m o, e2dName m o⟩

/-- The entry of a record, if it is in use. -/
def liveAt : List Dirent := if e2dIno m o = 0 then [] else [direntAt m o]

end

/-- The space the entries need when nothing is between them. -/
def used (es : List Dirent) : ℕ := (es.map fun e => dirRecLen e.name.length).sum

/-- A record that keeps the rules. -/
structure Record (m : Mem) (o : ℕ) : Prop where
  aligned : 4 ∣ e2dReclen m o
  fits : dirRecLen (e2dNamlen m o) ≤ e2dReclen m o

/-- The records from one offset up to another, with the entries in use. -/
inductive Chain (m : Mem) : ℕ → ℕ → List Dirent → Prop
  | nil (o : ℕ) : Chain m o o []
  | cons {o stop : ℕ} {es : List Dirent} (hr : Record m o) (h : Chain m (o + e2dReclen m o) stop es) :
      Chain m o stop (liveAt m o ++ es)

variable {m m' : Mem} {o o' a b c stop : ℕ} {es es' : List Dirent}

/-! ### Lengths -/

theorem dirRecLen_ge (n : ℕ) : n + 8 ≤ dirRecLen n := by
  unfold dirRecLen
  omega

theorem dirRecLen_dvd (n : ℕ) : 4 ∣ dirRecLen n := Nat.dvd_mul_left 4 _

theorem dirRecLen_le {n : ℕ} (h : n ≤ EXT2FS_MAXNAMLEN) : dirRecLen n ≤ 264 := by
  have h : n ≤ 255 := h
  unfold dirRecLen
  omega

theorem e2dNamlen_lt (m : Mem) (o : ℕ) : e2dNamlen m o < 256 := le_lt 1 m (o + 6)

theorem e2dName_length (m : Mem) (o : ℕ) : (e2dName m o).length = e2dNamlen m o := by
  simp [e2dName]

@[simp] theorem used_nil : used [] = 0 := rfl

@[simp] theorem used_cons (e : Dirent) (es : List Dirent) :
    used (e :: es) = dirRecLen e.name.length + used es := by
  simp [used]

@[simp] theorem used_append (es es' : List Dirent) : used (es ++ es') = used es + used es' := by
  simp [used]

theorem Record.pos (h : Record m o) : 8 ≤ e2dReclen m o := by
  have := h.fits
  have := dirRecLen_ge (e2dNamlen m o)
  omega

theorem used_liveAt_le (h : Record m o) : used (liveAt m o) ≤ e2dReclen m o := by
  unfold liveAt
  split
  · exact Nat.zero_le _
  · rw [used_cons, used_nil, Nat.add_zero]
    show dirRecLen (e2dName m o).length ≤ _
    rw [e2dName_length]
    exact h.fits

/-! ### What a record depends on -/

/-- Two records with the same bytes besides `e2d_reclen`. -/
def SameEntry (m m' : Mem) (o o' : ℕ) : Prop :=
  ∀ i < 8 + e2dNamlen m o, i < 4 ∨ 6 ≤ i → m' (o' + i) = m (o + i)

namespace SameEntry

theorem ino (h : SameEntry m m' o o') : e2dIno m' o' = e2dIno m o :=
  le_congr fun i hi => h i (by omega) (by omega)

theorem namlen (h : SameEntry m m' o o') : e2dNamlen m' o' = e2dNamlen m o := by
  apply le_congr
  intro i hi
  rw [Nat.add_assoc, Nat.add_assoc]
  exact h (6 + i) (by omega) (by omega)

theorem direntAt (h : SameEntry m m' o o') : direntAt m' o' = direntAt m o := by
  have htype : e2dType m' o' = e2dType m o := by
    apply le_congr
    intro i hi
    rw [Nat.add_assoc, Nat.add_assoc]
    exact h (7 + i) (by omega) (by omega)
  have hname : e2dName m' o' = e2dName m o := by
    unfold e2dName
    rw [h.namlen]
    apply List.map_congr_left
    intro i hi
    have hi := List.mem_range.1 hi
    rw [Nat.add_assoc, Nat.add_assoc]
    exact h (8 + i) (by omega) (by omega)
  show (⟨_, _, _⟩ : Dirent) = ⟨_, _, _⟩
  rw [h.ino, htype, hname]

theorem liveAt (h : SameEntry m m' o o') : liveAt m' o' = liveAt m o := by
  unfold Ext2fs.liveAt
  rw [h.ino, h.direntAt]

end SameEntry

/-- The length of a record depends on its two bytes. -/
theorem e2dReclen_congr (h4 : m' (o' + 4) = m (o + 4)) (h5 : m' (o' + 5) = m (o + 5)) :
    e2dReclen m' o' = e2dReclen m o := by
  apply le_congr
  intro i hi
  rcases (by omega : i = 0 ∨ i = 1) with rfl | rfl
  · exact h4
  · exact h5

/-- A record in bytes that are kept. -/
theorem Record.congr (h : Record m o) (hsame : ∀ i, o ≤ i → i < o + e2dReclen m o → m' i = m i) :
    Record m' o ∧ e2dReclen m' o = e2dReclen m o ∧ liveAt m' o = liveAt m o := by
  have hpos := h.pos
  have hlen : e2dReclen m' o = e2dReclen m o :=
    e2dReclen_congr (hsame _ (by omega) (by omega)) (hsame _ (by omega) (by omega))
  have hentry : SameEntry m m' o o := by
    intro i hi _
    have := h.fits
    have := dirRecLen_ge (e2dNamlen m o)
    exact hsame _ (by omega) (by omega)
  refine ⟨⟨?_, ?_⟩, hlen, hentry.liveAt⟩
  · rw [hlen]
    exact h.aligned
  · rw [hlen, hentry.namlen]
    exact h.fits

/-! ### Chains -/

namespace Chain

theorem le (h : Chain m o stop es) : o ≤ stop := by
  induction h with
  | nil => exact le_rfl
  | cons hr h ih => omega

theorem dvd (h : Chain m o stop es) : 4 ∣ stop - o := by
  induction h with
  | nil => simp
  | @cons o stop es hr h ih =>
    have hle := h.le
    have halign := hr.aligned
    omega

theorem used_le (h : Chain m o stop es) : used es ≤ stop - o := by
  induction h with
  | nil => simp
  | @cons o stop es hr h ih =>
    have hle := h.le
    have hlive := used_liveAt_le hr
    rw [used_append]
    omega

/-- A chain depends on its own bytes only. -/
theorem congr (h : Chain m o stop es) (hsame : ∀ i, o ≤ i → i < stop → m' i = m i) :
    Chain m' o stop es := by
  induction h with
  | nil => exact .nil _
  | @cons o stop es hr h ih =>
    have hle := h.le
    have hrecord : ∀ i, o ≤ i → i < o + e2dReclen m o → m' i = m i :=
      fun i h1 h2 => hsame i h1 (by omega)
    obtain ⟨hr', hlen, hlive⟩ := hr.congr hrecord
    rw [← hlive]
    refine .cons hr' ?_
    rw [hlen]
    exact ih fun i h1 h2 => hsame i (by omega) h2

theorem append (h : Chain m a b es) (h' : Chain m b c es') : Chain m a c (es ++ es') := by
  induction h with
  | nil => exact h'
  | cons hr h ih =>
    rw [List.append_assoc]
    exact .cons hr (ih h')

/-- A chain of one record. -/
theorem single (hr : Record m o) : Chain m o (o + e2dReclen m o) (liveAt m o) := by
  have h := Chain.cons hr (.nil _)
  rwa [List.append_nil] at h

theorem snoc (h : Chain m a o es) (hr : Record m o) :
    Chain m a (o + e2dReclen m o) (es ++ liveAt m o) :=
  h.append (single hr)

/-- The next record of a chain that has not come to its end. -/
theorem uncons (h : Chain m o stop es) (hlt : o < stop) :
    Record m o ∧ ∃ es', es = liveAt m o ++ es' ∧ Chain m (o + e2dReclen m o) stop es' := by
  cases h with
  | nil => exact absurd hlt (lt_irrefl _)
  | cons hr h => exact ⟨hr, _, rfl, h⟩

/-- A chain that ends where it starts is empty. -/
theorem eq_nil (h : Chain m o o es) : es = [] := by
  cases h with
  | nil => rfl
  | cons hr h =>
    have := h.le
    have := hr.pos
    omega

/-- A chain has one list of entries. -/
theorem unique (h : Chain m o stop es) (h' : Chain m o stop es') : es' = es := by
  induction h generalizing es' with
  | nil => exact h'.eq_nil
  | @cons o stop es hr h ih =>
    have hle := h.le
    have hpos := hr.pos
    obtain ⟨_, es₂, rfl, h₂⟩ := h'.uncons (by omega)
    rw [ih h₂]

end Chain

end Ext2fs
