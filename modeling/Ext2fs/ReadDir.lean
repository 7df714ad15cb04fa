import Ext2fs.DirSearch

/-!
# Reading a directory

`ext2_readdir` goes through a directory block by block, always from the start of a block, passes over
the records in front of the offset it was called with, and copies the others out while the buffer of
the caller has room.  Which bytes of a block are looked at is recorded.

* `walkRound`, `walk` — one record, and the records of a block;
* `ext2Readdir` — the call;
* `lookedAt`, `OnTheWay` — what a round looks at, and the records that a call comes to;
* `readdir_ends` — the call comes back;
* **`readdir_inside_iff`** — what is looked at lies among the valid bytes of the block, for a buffer of
  any size, exactly where every record on the way has its header and its name there.
-/

namespace Ext2fs

open Bytes

/-! ### The call -/

/-- `ext2_ft_to_dt`: the `DT_` type of an `EXT2_FT_` type. -/
def ext2FtToDt : List ℕ := [0, 8, 4, 2, 6, 1, 12, 10]

/-- `FTTODT` -/
def FTTODT (ft : ℕ) : ℕ := ext2FtToDt.getD ft 0

/-- The `struct dirent` that is copied out; the length of the record is that of the name, rounded up. -/
structure UserDirent where
  d_ino : ℕ
  d_type : ℕ
  d_name : List UInt8
  deriving DecidableEq, Repr

/-- The rest of the kernel during a call. -/
structure ReaddirEnv where
  /-- `offsetof(struct dirent, d_name)` -/
  nameAt : ℕ
  nameAt_le : nameAt ≤ 1024
  /-- `ext2_blkatoff` of a block of the directory -/
  read : ℕ → Option Errno
  /-- `uiomove` of an entry, by its number in the call -/
  uiomove : ℕ → Option Errno

/-- `EXT2_DIRENT_RECLEN` -/
def direntReclen (env : ReaddirEnv) (namlen : ℕ) : ℕ := (env.nameAt + namlen + 1 + 3) / 4 * 4

/-- The bytes `off`, ..., `off + len - 1` of a block, of which `readcnt` are valid. -/
structure Touch where
  readcnt : ℕ
  off : ℕ
  len : ℕ
  deriving DecidableEq

/-- They are all valid. -/
def Touch.Inside (t : Touch) : Prop := ∀ i < t.len, t.off + i < t.readcnt

/-- The state of the walk over a block. -/
structure DirWalk where
  /-- `dp - bdata` -/
  dp : ℕ
  /-- `uio_resid` -/
  resid : ℤ
  /-- the entries that were copied out, in order -/
  out : List UserDirent
  touched : List Touch

/-- How the walk over a block ends: `error`, with `EJUSTRETURN` where the buffer is full. -/
inductive WalkEnd where
  | ok
  | justReturn
  | failed (e : Errno)
  deriving DecidableEq

/-- A block of a directory during the call. -/
structure DirBlock where
  m : Mem
  /-- `boff` -/
  boff : ℕ
  /-- `readcnt` -/
  readcnt : ℕ
  /-- `startoffset` -/
  startoffset : ℕ
  /-- `startresid` -/
  startresid : ℤ

/-- Bytes of the block are looked at. -/
def DirWalk.touch (w : DirWalk) (B : DirBlock) (off len : ℕ) : DirWalk :=
  { w with touched := w.touched ++ [⟨B.readcnt, off, len⟩] }

/-- `nextentry` -/
def DirWalk.next (w : DirWalk) (reclen : ℕ) : DirWalk := { w with dp := w.dp + reclen }

/-- An entry was copied out. -/
def DirWalk.copied (w : DirWalk) (env : ReaddirEnv) (e : UserDirent) : DirWalk :=
  { w with resid := w.resid - direntReclen env e.d_name.length, out := w.out ++ [e] }

/-- The entry made of a record. -/
def userDirent (e : Dirent) : UserDirent := ⟨e.ino, FTTODT e.type, e.name⟩

section Call

variable (fs : MExt2fs) (env : ReaddirEnv)

/-- One round of the loop over the records: the state behind the record, or the end of the loop.
`offset` is the offset of the record in the file, `boff + dp`. -/
def walkRound (B : DirBlock) (w : DirWalk) : DirWalk × Option WalkEnd :=
  let o := B.boff + w.dp
  let reclen := e2dReclen B.m o
  let w₁ := w.touch B (w.dp + 4) 2
  -- `offsetof(struct ext2fs_direct_2, e2d_namlen)` is 6
  if reclen ≤ 6 ∨ B.readcnt < w.dp + reclen then (w₁, some (.failed .eio))
  else
    let w₂ := (w₁.touch B (w.dp + 6) 1).touch B (w.dp + 7) 1
    if reclen < 6 + e2dNamlen B.m o then (w₂, some (.failed .eio))
    else if o < B.startoffset then (w₂.next reclen, none)
    else
      let w₃ := w₂.touch B w.dp 4
      if e2dIno B.m o = 0 then (w₃.next reclen, none)
      else
        let w₄ := w₃.touch B (w.dp + 8) (e2dNamlen B.m o)
        if w.resid < direntReclen env (e2dNamlen B.m o) then
          (w₄, some (if w.resid = B.startresid then .failed .einval else .justReturn))
        else
          match env.uiomove w.out.length with
          | some e => (w₄, some (.failed e))
          | none => ((w₄.copied env (userDirent (direntAt B.m o))).next reclen, none)

/-- The records of a block; nothing when the rounds do not suffice. -/
def walk (B : DirBlock) : ℕ → DirWalk → Option (DirWalk × WalkEnd)
  | 0, _ => none
  | fuel + 1, w =>
      if 0 < w.resid ∧ w.dp < B.readcnt then
        match walkRound env B w with
        | (w', some e) => some (w', e)
        | (w', none) => walk B fuel w'
      else some (w, .ok)

/-- The block of a directory that holds an offset; `buf_count` of its buffer is what `ext2_blkatoff` asked
for, `e2fs_fsize`. -/
def dirBlock (d : Directory) (startoffset : ℕ) (startresid : ℤ) (offset : ℕ) : DirBlock where
  m := d.data
  boff := fs.lblkno offset * fs.bsize
  readcnt :=
    if d.size < fs.lblkno offset * fs.bsize + fs.fsize then d.size - fs.lblkno offset * fs.bsize
    else fs.fsize
  startoffset := startoffset
  startresid := startresid

/-- `skipcnt`: whole blocks between the start of the block and the offset. -/
def skipcnt (offset : ℕ) : ℕ := (offset - fs.lblkno offset * fs.bsize) / fs.bsize * fs.bsize

/-- What a call has done. -/
structure ReaddirRes where
  /-- `error` -/
  err : WalkEnd
  /-- `uio_offset` -/
  offset : ℕ
  resid : ℤ
  out : List UserDirent
  touched : List Touch

/-- The loop over the blocks, at an offset. -/
def readdirLoop (d : Directory) (startoffset : ℕ) (startresid : ℤ) :
    ℕ → ℕ → ℤ → List UserDirent → List Touch → Option ReaddirRes
  | 0, _, _, _, _ => none
  | fuel + 1, offset, resid, out, touched =>
      if 0 < resid ∧ offset < d.size then
        match env.read (fs.lblkno offset) with
        | some e => some ⟨.failed e, offset, resid, out, touched⟩
        | none =>
            let B := dirBlock fs d startoffset startresid offset
            match walk env B (B.readcnt + 1) ⟨skipcnt fs offset, resid, out, touched⟩ with
            | none => none
            | some (w, .ok) =>
                readdirLoop d startoffset startresid fuel (B.boff + w.dp) w.resid w.out w.touched
            | some (w, e) => some ⟨e, B.boff + w.dp, w.resid, w.out, w.touched⟩
      else some ⟨.ok, offset, resid, out, touched⟩

/-- `ext2_readdir` with a buffer of `resid` bytes, at an offset that is not negative and without
`VNODE_READDIR_EXTENDED` and `VNODE_READDIR_REQSEEKOFF`, which are refused. -/
def ext2Readdir (d : Directory) (offset : ℕ) (resid : ℤ) : Option ReaddirRes :=
  readdirLoop fs env d offset resid (d.size + 1) offset resid [] []

/-- `error` as it is returned. -/
def ReaddirRes.error (r : ReaddirRes) : Option Errno :=
  match r.err with
  | .failed e => some e
  | _ => none

/-- `a_eofflag`, which is set when there is no error. -/
def ReaddirRes.eof (d : Directory) (r : ReaddirRes) : Option Bool :=
  if r.error = none then some (d.size ≤ r.offset) else none

end Call

/-! ### Where the walk looks -/

/-- A record that the walk passes: the two lengths are let through, and it ends by `stop`. -/
def RecordPasses (m : Mem) (stop o : ℕ) : Prop :=
  6 < e2dReclen m o ∧ o + e2dReclen m o ≤ stop ∧ 6 + e2dNamlen m o ≤ e2dReclen m o

/-- What is looked at of the record at an offset lies in front of `stop`: the length, the header if the
length is let through, and the name if it is copied. -/
structure RecordInside (m : Mem) (stop startoffset o : ℕ) : Prop where
  reclen : o + 6 ≤ stop
  head : 6 < e2dReclen m o → o + e2dReclen m o ≤ stop → o + 8 ≤ stop
  name : RecordPasses m stop o → startoffset ≤ o → e2dIno m o ≠ 0 → e2dNamlen m o ≠ 0 →
    o + 8 + e2dNamlen m o ≤ stop

/-- The end of the valid bytes in the block of an offset. -/
def validEnd (fs : MExt2fs) (d : Directory) (o : ℕ) : ℕ := min ((fs.lblkno o + 1) * fs.bsize) d.size

/-- The record behind one that is passed; a new block has to be read first. -/
inductive NextRecord (fs : MExt2fs) (read : ℕ → Option Errno) (d : Directory) : ℕ → ℕ → Prop
  | intro {o : ℕ} (hpass : RecordPasses d.data (validEnd fs d o) o)
      (hlt : o + e2dReclen d.data o < d.size)
      (hread : fs.blkoff (o + e2dReclen d.data o) = 0 → read (fs.lblkno (o + e2dReclen d.data o)) = none) :
      NextRecord fs read d o (o + e2dReclen d.data o)

/-- The records that a call comes to, if the buffer has the room. -/
def OnTheWay (fs : MExt2fs) (read : ℕ → Option Errno) (d : Directory) (offset o : ℕ) : Prop :=
  offset < d.size ∧ read (fs.lblkno offset) = none ∧
    Relation.ReflTransGen (NextRecord fs read d) (fs.lblkno offset * fs.bsize) o

/-- A call from an offset comes back and looks at valid bytes only, whatever the room in the buffer and
the rest of the kernel. -/
def ReaddirSafe (fs : MExt2fs) (read : ℕ → Option Errno) (d : Directory) (offset : ℕ) : Prop :=
  ∀ env : ReaddirEnv, env.read = read → ∀ resid : ℤ,
    ∃ r, ext2Readdir fs env d offset resid = some r ∧ ∀ t ∈ r.touched, t.Inside

section Walk

variable {fs : MExt2fs} {env : ReaddirEnv} {B : DirBlock} {d : Directory} {w w' : DirWalk} {fuel : ℕ}

theorem Touch.inside_iff {t : Touch} : t.Inside ↔ t.len = 0 ∨ t.off + t.len ≤ t.readcnt := by
  unfold Touch.Inside
  constructor
  · intro h
    by_cases hlen : t.len = 0
    · exact .inl hlen
    · have hlast := h (t.len - 1) (by omega)
      omega
  · intro h i hi
    omega

/-- What a round looks at. -/
def lookedAt (B : DirBlock) (dp : ℕ) : List Touch :=
  ⟨B.readcnt, dp + 4, 2⟩ ::
    if e2dReclen B.m (B.boff + dp) ≤ 6 ∨ B.readcnt < dp + e2dReclen B.m (B.boff + dp) then []
    else ⟨B.readcnt, dp + 6, 1⟩ :: ⟨B.readcnt, dp + 7, 1⟩ ::
      if e2dReclen B.m (B.boff + dp) < 6 + e2dNamlen B.m (B.boff + dp) ∨ B.boff + dp < B.startoffset then []
      else ⟨B.readcnt, dp, 4⟩ ::
        if e2dIno B.m (B.boff + dp) = 0 then []
        else [⟨B.readcnt, dp + 8, e2dNamlen B.m (B.boff + dp)⟩]

theorem walkRound_touched : (walkRound env B w).1.touched = w.touched ++ lookedAt B w.dp := by
  unfold walkRound lookedAt
  simp only
  split
  · rfl
  · split
    · next hname =>
      rw [if_pos (.inl hname)]
      simp [DirWalk.touch]
    · next hname =>
      split
      · next hstart =>
        rw [if_pos (.inr hstart)]
        simp [DirWalk.touch, DirWalk.next]
      · next hstart =>
        rw [if_neg (not_or.2 ⟨hname, hstart⟩)]
        split
        · simp [DirWalk.touch, DirWalk.next]
        · split
          · simp [DirWalk.touch]
          · split
            · simp [DirWalk.touch]
            · simp [DirWalk.touch, DirWalk.next, DirWalk.copied]

theorem lookedAt_inside {dp : ℕ} : (∀ t ∈ lookedAt B dp, t.Inside) ↔
    RecordInside B.m (B.boff + B.readcnt) B.startoffset (B.boff + dp) := by
  unfold lookedAt
  simp only [List.forall_mem_cons, Touch.inside_iff]
  constructor
  · intro ⟨hreclen, hrest⟩
    refine ⟨by omega, fun hgt hle => ?_, fun hpass hstart hino hname => ?_⟩
    · rw [if_neg (by omega)] at hrest
      simp only [List.forall_mem_cons] at hrest
      omega
    · obtain ⟨hgt, hle, hfit⟩ := hpass
      rw [if_neg (by omega), if_neg (by omega), if_neg hino] at hrest
      simp only [List.forall_mem_cons] at hrest
      omega
  · intro ⟨hreclen, hhead, hname⟩
    refine ⟨by omega, ?_⟩
    split
    · exact fun t ht => absurd ht List.not_mem_nil
    · next hlen =>
      have hhead := hhead (by omega) (by omega)
      simp only [List.forall_mem_cons]
      refine ⟨by omega, by omega, ?_⟩
      split
      · exact fun t ht => absurd ht List.not_mem_nil
      · next hgo =>
        simp only [List.forall_mem_cons]
        refine ⟨by omega, ?_⟩
        split
        · exact fun t ht => absurd ht List.not_mem_nil
        · next hino =>
          have hpass : RecordPasses B.m (B.boff + B.readcnt) (B.boff + dp) := by
            refine ⟨?_, ?_, ?_⟩ <;> omega
          have hname := hname hpass (by omega) hino
          simp only [List.forall_mem_singleton]
          omega

/-- A round looks at valid bytes exactly when the record allows it. -/
theorem walkRound_inside : (∀ t ∈ (walkRound env B w).1.touched, t.Inside) ↔
    (∀ t ∈ w.touched, t.Inside) ∧ RecordInside B.m (B.boff + B.readcnt) B.startoffset (B.boff + w.dp) := by
  rw [walkRound_touched, List.forall_mem_append, lookedAt_inside]

/-- A round that does not end the loop has passed the record. -/
theorem walkRound_next (h : walkRound env B w = (w', none)) :
    RecordPasses B.m (B.boff + B.readcnt) (B.boff + w.dp) ∧ w'.dp = w.dp + e2dReclen B.m (B.boff + w.dp) := by
  unfold walkRound at h
  simp only at h
  split at h
  · cases h
  · next hlen =>
    split at h
    · cases h
    · next hname =>
      have hpass : RecordPasses B.m (B.boff + B.readcnt) (B.boff + w.dp) := by
        refine ⟨?_, ?_, ?_⟩ <;> omega
      refine ⟨hpass, ?_⟩
      split at h
      · cases h
        rfl
      · split at h
        · cases h
          rfl
        · split at h
          · cases h
          · split at h
            · cases h
            · cases h
              rfl

/-- A round ends the loop with an error, or because the buffer is full. -/
theorem walkRound_stop {e : WalkEnd}
    (h : walkRound env B w = (w', some e)) : e ≠ .ok ∧ w'.dp = w.dp := by
  have hend : ∀ {w₁ : DirWalk} {e₁ : WalkEnd}, (w₁, some e₁) = (w', some e) → e₁ ≠ .ok → w₁.dp = w.dp →
      e ≠ .ok ∧ w'.dp = w.dp := by
    intro w₁ e₁ heq hne hdp
    cases heq
    exact ⟨hne, hdp⟩
  unfold walkRound at h
  simp only at h
  split at h
  · exact hend h (by decide) rfl
  · split at h
    · exact hend h (by decide) rfl
    · split at h
      · cases h
      · split at h
        · cases h
        · split at h
          · exact hend h (by split <;> decide) rfl
          · split at h
            · exact hend h (by rintro ⟨⟩) rfl
            · cases h

/-- With room for any entry, and a `uiomove` that never fails, only a bad record ends the loop. -/
theorem walkRound_room (hroom : 2000 ≤ w.resid) (hcopy : ∀ n, env.uiomove n = none)
    (hpass : RecordPasses B.m (B.boff + B.readcnt) (B.boff + w.dp)) :
    ∃ w', walkRound env B w = (w', none) ∧ w.resid - 2000 ≤ w'.resid := by
  obtain ⟨hgt, hle, hfit⟩ := hpass
  have hlen : direntReclen env (e2dNamlen B.m (B.boff + w.dp)) ≤ 2000 := by
    have hname := env.nameAt_le
    have hlt := e2dNamlen_lt B.m (B.boff + w.dp)
    unfold direntReclen
    omega
  have hlen' : direntReclen env (e2dName B.m (B.boff + w.dp)).length ≤ 2000 := by
    rwa [e2dName_length]
  unfold walkRound
  simp only
  rw [if_neg (by omega), if_neg (by omega)]
  split
  · exact ⟨_, rfl, show w.resid - 2000 ≤ w.resid by omega⟩
  · split
    · exact ⟨_, rfl, show w.resid - 2000 ≤ w.resid by omega⟩
    · rw [if_neg (show ¬w.resid < direntReclen env _ by omega), hcopy]
      refine ⟨_, rfl, ?_⟩
      show w.resid - 2000 ≤ w.resid - (direntReclen env (e2dName B.m (B.boff + w.dp)).length : ℤ)
      omega

end Walk

section Loop

variable {fs : MExt2fs} {env : ReaddirEnv} {d : Directory} {s offset : ℕ} {r : ℤ} {w w' : DirWalk} {fuel : ℕ}

theorem dirBlock_start_le : fs.lblkno offset * fs.bsize ≤ offset := Nat.div_mul_le_self offset fs.bsize

theorem dirBlock_lt : offset < fs.lblkno offset * fs.bsize + fs.bsize := by
  have hmod := Nat.mod_lt offset fs.bsize_pos
  have hdiv := Nat.div_add_mod' offset fs.bsize
  show offset < offset / fs.bsize * fs.bsize + fs.bsize
  omega

/-- The valid bytes of a block end at the end of the block or of the directory. -/
theorem dirBlock_stop (hfrag : fs.fsize = fs.bsize) (h : offset < d.size) :
    (dirBlock fs d s r offset).boff + (dirBlock fs d s r offset).readcnt = validEnd fs d offset := by
  have hle := @dirBlock_start_le fs offset
  show fs.lblkno offset * fs.bsize + (if d.size < fs.lblkno offset * fs.bsize + fs.fsize then
    d.size - fs.lblkno offset * fs.bsize else fs.fsize) = min ((fs.lblkno offset + 1) * fs.bsize) d.size
  rw [hfrag, Nat.add_mul, Nat.one_mul, Nat.min_def]
  generalize fs.lblkno offset * fs.bsize = a at hle ⊢
  have hback : a + (d.size - a) = d.size := Nat.add_sub_cancel' (hle.trans h.le)
  split <;> split <;> omega

theorem lt_validEnd (h : offset < d.size) : offset < validEnd fs d offset := by
  have hlt := @dirBlock_lt fs offset
  show offset < min ((fs.lblkno offset + 1) * fs.bsize) d.size
  rw [Nat.add_mul, Nat.one_mul]
  omega

theorem skipcnt_eq_zero : skipcnt fs offset = 0 := by
  have hlt := @dirBlock_lt fs offset
  have hpos := fs.bsize_pos
  have hsmall : offset - fs.lblkno offset * fs.bsize < fs.bsize := by omega
  unfold skipcnt
  rw [Nat.div_eq_of_lt hsmall, Nat.zero_mul]

/-- The records of one block have the same valid end. -/
theorem validEnd_of_mem {o : ℕ} (hle : fs.lblkno offset * fs.bsize ≤ o)
    (hlt : o < validEnd fs d offset) :
    validEnd fs d o = validEnd fs d offset := by
  have hend : o < (fs.lblkno offset + 1) * fs.bsize := lt_of_lt_of_le hlt (Nat.min_le_left _ _)
  have hblk : fs.lblkno o = fs.lblkno offset :=
    Nat.div_eq_of_lt_le hle hend
  unfold validEnd
  rw [hblk]

/-- **The walk over a block** comes to an end; with room left and no error, at the end of the block. -/
theorem walk_ends (B : DirBlock) (hfuel : B.readcnt < w.dp + fuel) (hle : w.dp ≤ B.readcnt) :
    ∃ w' e, walk env B fuel w = some (w', e) ∧ (e = .ok → 0 < w'.resid → w'.dp = B.readcnt) := by
  induction fuel generalizing w with
  | zero => omega
  | succ fuel ih =>
    unfold walk
    split
    · next hgo =>
      cases hround : walkRound env B w with
      | mk w₁ e =>
        cases e with
        | some e =>
          exact ⟨w₁, e, rfl, fun hok => absurd hok (walkRound_stop hround).1⟩
        | none =>
          obtain ⟨⟨hgt, hend, -⟩, hdp⟩ := walkRound_next hround
          exact ih (by omega) (by omega)
    · next hstop => exact ⟨w, .ok, rfl, fun _ hr => by omega⟩

/-- A walk goes forward and keeps what was looked at. -/
theorem walk_mono {B : DirBlock} {e : WalkEnd} (h : walk env B fuel w = some (w', e)) :
    w.dp ≤ w'.dp ∧ (w.dp ≤ B.readcnt → w'.dp ≤ B.readcnt) ∧ ∀ t ∈ w.touched, t ∈ w'.touched := by
  induction fuel generalizing w with
  | zero => cases h
  | succ fuel ih =>
    unfold walk at h
    split at h
    · next hgo =>
      have htouched := @walkRound_touched env B w
      cases hround : walkRound env B w with
      | mk w₁ e₁ =>
        rw [hround] at h htouched
        have hkeep : ∀ t ∈ w.touched, t ∈ w₁.touched := fun t ht =>
          htouched ▸ List.mem_append_left _ ht
        cases e₁ with
        | some e₁ =>
          simp only [Option.some.injEq, Prod.mk.injEq] at h
          obtain ⟨rfl, rfl⟩ := h
          have hdp := (walkRound_stop hround).2
          exact ⟨hdp.ge, fun hle => hdp ▸ hle, hkeep⟩
        | none =>
          obtain ⟨⟨hgt, hend, -⟩, hdp⟩ := walkRound_next hround
          obtain ⟨h1, h2, h3⟩ := ih h
          exact ⟨by omega, fun _ => h2 (by omega), fun t ht => h3 t (hkeep t ht)⟩
    · simp only [Option.some.injEq, Prod.mk.injEq] at h
      obtain ⟨rfl, rfl⟩ := h
      exact ⟨le_refl _, fun hle => hle, fun t ht => ht⟩

/-- A record between two others of a block does not start a new one. -/
theorem blkoff_ne_zero {o : ℕ} (hlt : fs.lblkno offset * fs.bsize < o)
    (hend : o < fs.lblkno offset * fs.bsize + fs.bsize) : fs.blkoff o ≠ 0 := by
  intro hzero
  obtain ⟨k, hk⟩ := Nat.dvd_of_mod_eq_zero (show o % fs.bsize = 0 from hzero)
  rw [hk, Nat.mul_comm fs.bsize k] at hlt hend
  have hlow := Nat.lt_of_mul_lt_mul_right hlt
  have hhigh : k < fs.lblkno offset + 1 := by
    refine Nat.lt_of_mul_lt_mul_right (show k * fs.bsize < (fs.lblkno offset + 1) * fs.bsize from ?_)
    rwa [Nat.add_mul, Nat.one_mul]
  omega

section

variable {read : ℕ → Option Errno} {e : WalkEnd}

theorem dirBlock_valid (hfrag : fs.fsize = fs.bsize) (hoff : offset < d.size) {dp : ℕ}
    (hlt : dp < (dirBlock fs d s r offset).readcnt) :
    (dirBlock fs d s r offset).boff + dp < d.size ∧
      validEnd fs d ((dirBlock fs d s r offset).boff + dp) =
        (dirBlock fs d s r offset).boff + (dirBlock fs d s r offset).readcnt := by
  have hstop := @dirBlock_stop fs d s offset r hfrag hoff
  have hsize : validEnd fs d offset ≤ d.size := Nat.min_le_right _ _
  refine ⟨by omega, ?_⟩
  rw [hstop]
  exact validEnd_of_mem (Nat.le_add_right _ _) (by omega)

/-- The record behind the one of a round is the next one, if it is there and a new block can be read. -/
theorem walkRound_nextRecord (hfrag : fs.fsize = fs.bsize) (hoff : offset < d.size)
    (hlt : w.dp < (dirBlock fs d s r offset).readcnt)
    (h : walkRound env (dirBlock fs d s r offset) w = (w', none))
    (hsize : (dirBlock fs d s r offset).boff + w'.dp < d.size)
    (hread : w'.dp = (dirBlock fs d s r offset).readcnt →
      read (fs.lblkno ((dirBlock fs d s r offset).boff + w'.dp)) = none) :
    NextRecord fs read d ((dirBlock fs d s r offset).boff + w.dp)
      ((dirBlock fs d s r offset).boff + w'.dp) := by
  obtain ⟨hpass, hdp⟩ := walkRound_next h
  have hstop := @dirBlock_stop fs d s offset r hfrag hoff
  have hend : validEnd fs d offset ≤ fs.lblkno offset * fs.bsize + fs.bsize := by
    rw [← Nat.succ_mul]
    exact Nat.min_le_left _ _
  have hplace : (dirBlock fs d s r offset).boff + w'.dp =
      (dirBlock fs d s r offset).boff + w.dp + e2dReclen d.data ((dirBlock fs d s r offset).boff + w.dp) := by
    rw [hdp, Nat.add_assoc]
    rfl
  have hblk : fs.blkoff ((dirBlock fs d s r offset).boff + w'.dp) = 0 →
      w'.dp = (dirBlock fs d s r offset).readcnt := by
    intro hzero
    have hgt := hpass.1
    have hle := hpass.2.1
    by_contra hne
    refine @blkoff_ne_zero fs offset _ ?_ ?_ hzero
    · show fs.lblkno offset * fs.bsize < fs.lblkno offset * fs.bsize + w'.dp
      omega
    · exact lt_of_lt_of_le (by omega) hend
  rw [hplace] at hsize hread hblk ⊢
  refine .intro ?_ hsize fun hzero => hread (hblk hzero)
  rw [(dirBlock_valid hfrag hoff hlt).2]
  exact hpass

/-- The walk over a block looks at valid bytes if all records on its way allow it, and goes along them to
the place where it ends. -/
theorem walk_inside (hfrag : fs.fsize = fs.bsize) (hoff : offset < d.size)
    (hw : ∀ t ∈ w.touched, t.Inside)
    (hle : w.dp ≤ (dirBlock fs d s r offset).readcnt)
    (hin : ∀ o, w.dp < (dirBlock fs d s r offset).readcnt →
      Relation.ReflTransGen (NextRecord fs read d) ((dirBlock fs d s r offset).boff + w.dp) o →
      RecordInside d.data (validEnd fs d o) s o)
    (h : walk env (dirBlock fs d s r offset) fuel w = some (w', e)) :
    (∀ t ∈ w'.touched, t.Inside) ∧ ((dirBlock fs d s r offset).boff + w'.dp < d.size →
        read (fs.lblkno ((dirBlock fs d s r offset).boff + w'.dp)) = none →
        Relation.ReflTransGen (NextRecord fs read d) ((dirBlock fs d s r offset).boff + w.dp)
          ((dirBlock fs d s r offset).boff + w'.dp)) := by
  induction fuel generalizing w with
  | zero => cases h
  | succ fuel ih =>
    unfold walk at h
    split at h
    · next hgo =>
      have hhere := hin _ hgo.2 .refl
      rw [(dirBlock_valid hfrag hoff hgo.2).2] at hhere
      have hround := (@walkRound_inside env (dirBlock fs d s r offset) w).2 ⟨hw, hhere⟩
      cases hr : walkRound env (dirBlock fs d s r offset) w with
      | mk w₁ e₁ =>
        rw [hr] at h hround
        cases e₁ with
        | some e₁ =>
          simp only [Option.some.injEq, Prod.mk.injEq] at h
          obtain ⟨rfl, rfl⟩ := h
          rw [(walkRound_stop hr).2]
          exact ⟨hround, fun _ _ => .refl⟩
        | none =>
          obtain ⟨⟨-, hlast, -⟩, hdp⟩ := walkRound_next hr
          have hle₁ : w₁.dp ≤ (dirBlock fs d s r offset).readcnt := by omega
          obtain ⟨hmono, hmax, -⟩ := walk_mono h
          have hmax := hmax hle₁
          have hin₁ : ∀ o, w₁.dp < (dirBlock fs d s r offset).readcnt →
              Relation.ReflTransGen (NextRecord fs read d) ((dirBlock fs d s r offset).boff + w₁.dp) o →
              RecordInside d.data (validEnd fs d o) s o := by
            intro o hlt hpath
            have hnext : NextRecord fs read d _ _ :=
              walkRound_nextRecord hfrag hoff hgo.2 hr (dirBlock_valid hfrag hoff hlt).1 fun h => by omega
            exact hin o hgo.2 (.head hnext hpath)
          have htouched₁ : ∀ t ∈ w₁.touched, t.Inside := hround
          obtain ⟨h1, h2⟩ := ih htouched₁ hle₁ hin₁ h
          refine ⟨h1, fun hlt hread => .head ?_ (h2 hlt hread)⟩
          refine walkRound_nextRecord hfrag hoff hgo.2 hr (by omega) fun hfull => ?_
          have hsame : w'.dp = w₁.dp := by omega
          rwa [hsame] at hread
    · simp only [Option.some.injEq, Prod.mk.injEq] at h
      obtain ⟨rfl, rfl⟩ := h
      exact ⟨hw, fun _ _ => .refl⟩

/-- The next block starts where the walk over a block ends. -/
theorem next_start (hfrag : fs.fsize = fs.bsize) (hoff : offset < d.size)
    (hlt : (dirBlock fs d s r offset).boff + (dirBlock fs d s r offset).readcnt < d.size) :
    fs.lblkno ((dirBlock fs d s r offset).boff + (dirBlock fs d s r offset).readcnt) * fs.bsize =
      (dirBlock fs d s r offset).boff + (dirBlock fs d s r offset).readcnt := by
  have hstop := @dirBlock_stop fs d s offset r hfrag hoff
  have hend : validEnd fs d offset = (fs.lblkno offset + 1) * fs.bsize := by
    rw [hstop] at hlt
    exact (min_choice _ _).resolve_right fun h => absurd hlt (by rw [show validEnd fs d offset = d.size from h]; omega)
  rw [hstop, hend]
  show (fs.lblkno offset + 1) * fs.bsize / fs.bsize * fs.bsize = _
  rw [Nat.mul_div_cancel _ fs.bsize_pos]

/-- With room for everything, the records on the way are looked at, up to the end of the block. -/
theorem walk_visits (hfrag : fs.fsize = fs.bsize) (hcopy : ∀ n, env.uiomove n = none)
    (hoff : offset < d.size)
    (hlt : w.dp < (dirBlock fs d s r offset).readcnt)
    (hroom : 2000 * (d.size - ((dirBlock fs d s r offset).boff + w.dp) : ℕ) ≤ w.resid)
    (h : walk env (dirBlock fs d s r offset) fuel w = some (w', e)) (hin : ∀ t ∈ w'.touched, t.Inside)
    {o : ℕ} (hpath : Relation.ReflTransGen (NextRecord fs read d) ((dirBlock fs d s r offset).boff + w.dp) o) :
    RecordInside d.data (validEnd fs d o) s o ∨
      (e = .ok ∧ w'.dp = (dirBlock fs d s r offset).readcnt ∧
        2000 * (d.size - ((dirBlock fs d s r offset).boff + w'.dp) : ℕ) ≤ w'.resid ∧
        (dirBlock fs d s r offset).boff + w'.dp < d.size ∧
        read (fs.lblkno ((dirBlock fs d s r offset).boff + w'.dp)) = none ∧
        Relation.ReflTransGen (NextRecord fs read d) ((dirBlock fs d s r offset).boff + w'.dp) o) := by
  induction fuel generalizing w with
  | zero => cases h
  | succ fuel ih =>
    obtain ⟨hsize, hvalid⟩ := dirBlock_valid hfrag hoff hlt
    unfold walk at h
    rw [if_pos ⟨by omega, hlt⟩] at h
    cases hr : walkRound env (dirBlock fs d s r offset) w with
    | mk w₁ e₁ =>
      rw [hr] at h
      have hround : ∀ t ∈ w₁.touched, t.Inside := by
        cases e₁ with
        | some e₁ =>
          simp only [Option.some.injEq, Prod.mk.injEq] at h
          obtain ⟨rfl, rfl⟩ := h
          exact hin
        | none => exact fun t ht => hin t ((walk_mono h).2.2 t ht)
      have hhere := (@walkRound_inside env (dirBlock fs d s r offset) w).1 (by rw [hr]; exact hround)
      rcases hpath.cases_head with rfl | ⟨u, hnext, hpath⟩
      · left
        rw [hvalid]
        exact hhere.2
      · obtain ⟨hpass, husize, hread⟩ := hnext
        rw [hvalid] at hpass
        have hten : 2000 ≤ w.resid := by omega
        obtain ⟨w₂, hr₂, hroom₂⟩ := @walkRound_room env (dirBlock fs d s r offset) w hten hcopy hpass
        obtain ⟨rfl, rfl⟩ : w₁ = w₂ ∧ e₁ = none := by
          rw [hr] at hr₂
          exact Prod.mk.inj hr₂
        obtain ⟨⟨hgt, hlast, -⟩, hdp⟩ := walkRound_next hr
        have hu : (dirBlock fs d s r offset).boff + w.dp +
            e2dReclen d.data ((dirBlock fs d s r offset).boff + w.dp) =
            (dirBlock fs d s r offset).boff + w₁.dp := by
          rw [hdp, ← Nat.add_assoc]
          rfl
        rw [hu] at hpath husize hread
        have hroom₁ : 2000 * (d.size - ((dirBlock fs d s r offset).boff + w₁.dp) : ℕ) ≤ w₁.resid := by omega
        by_cases hlt₁ : w₁.dp < (dirBlock fs d s r offset).readcnt
        · exact ih hlt₁ hroom₁ h hpath
        · -- the walk is through with the block
          right
          obtain ⟨rfl, rfl⟩ : w₁ = w' ∧ WalkEnd.ok = e := by
            cases fuel with
            | zero => cases h
            | succ fuel =>
              unfold walk at h
              simp only [if_neg fun hc => hlt₁ (And.right hc), Option.some.injEq, Prod.mk.injEq] at h
              exact h
          have hfull : w₁.dp = (dirBlock fs d s r offset).readcnt := by omega
          refine ⟨rfl, hfull, hroom₁, husize, hread ?_, hpath⟩
          rw [hfull] at husize ⊢
          rw [← next_start hfrag hoff husize]
          exact Nat.mul_mod_left _ _

/-- A loop without room does nothing. -/
theorem readdirLoop_full {resid : ℤ} (hresid : resid ≤ 0) (out : List UserDirent)
    (touched : List Touch) :
    readdirLoop fs env d s r (fuel + 1) offset resid out touched = some ⟨.ok, offset, resid, out, touched⟩ := by
  unfold readdirLoop
  rw [if_neg (by omega)]

/-- The loop over the blocks comes to an end. -/
theorem readdirLoop_ends (hfrag : fs.fsize = fs.bsize) {resid : ℤ} {out : List UserDirent}
    {touched : List Touch}
    (hfuel : d.size < offset + fuel) (hpos : 0 < fuel) :
    ∃ r', readdirLoop fs env d s r fuel offset resid out touched = some r' := by
  induction fuel generalizing offset resid out touched with
  | zero => omega
  | succ fuel ih =>
    unfold readdirLoop
    split
    · next hgo =>
      obtain ⟨hresid, hoff⟩ := hgo
      cases hread : env.read (fs.lblkno offset) with
      | some e => exact ⟨_, rfl⟩
      | none =>
        simp only [skipcnt_eq_zero]
        have hlt : (dirBlock fs d s r offset).readcnt < 0 + ((dirBlock fs d s r offset).readcnt + 1) := by omega
        obtain ⟨w', e, hwalk, hfull⟩ := @walk_ends env ⟨0, resid, out, touched⟩ _ _ hlt (Nat.zero_le _)
        rw [hwalk]
        cases e with
        | ok =>
          by_cases hroom : 0 < w'.resid
          · have hnext : offset < (dirBlock fs d s r offset).boff + w'.dp := by
              rw [hfull rfl hroom, dirBlock_stop hfrag hoff]
              exact lt_validEnd hoff
            exact ih (by omega) (by omega)
          · obtain ⟨n, rfl⟩ : ∃ n, fuel = n + 1 := ⟨fuel - 1, by omega⟩
            exact ⟨_, readdirLoop_full (by omega) _ _⟩
        | justReturn => exact ⟨_, rfl⟩
        | failed e => exact ⟨_, rfl⟩
    · exact ⟨_, rfl⟩

/-- **The call comes back** without fragments, whatever the directory holds. -/
theorem readdir_ends (fs : MExt2fs) (hfrag : fs.fsize = fs.bsize) (env : ReaddirEnv)
    (d : Directory) (offset : ℕ) (resid : ℤ) :
    ∃ r', ext2Readdir fs env d offset resid = some r' :=
  readdirLoop_ends hfrag (by omega) (by omega)

/-- The loop looks at valid bytes if the records on the way allow it. -/
theorem readdirLoop_inside (hfrag : fs.fsize = fs.bsize) (henv : env.read = read) {resid : ℤ}
    {out : List UserDirent} {touched : List Touch}
    {r' : ReaddirRes} (hin : ∀ o, OnTheWay fs read d offset o → RecordInside d.data (validEnd fs d o) s o)
    (htouched : ∀ t ∈ touched, t.Inside)
    (h : readdirLoop fs env d s r fuel offset resid out touched = some r') : ∀ t ∈ r'.touched, t.Inside := by
  induction fuel generalizing offset resid out touched with
  | zero => cases h
  | succ fuel ih =>
    unfold readdirLoop at h
    split at h
    · next hgo =>
      obtain ⟨hresid, hoff⟩ := hgo
      cases hread : env.read (fs.lblkno offset) with
      | some e =>
        rw [hread] at h
        exact (Option.some.inj h) ▸ htouched
      | none =>
        rw [hread] at h
        simp only [skipcnt_eq_zero] at h
        have hway : ∀ o, Relation.ReflTransGen (NextRecord fs read d) (dirBlock fs d s r offset).boff o →
            RecordInside d.data (validEnd fs d o) s o :=
          fun o hpath => hin o ⟨hoff, henv ▸ hread, hpath⟩
        cases hwalk : walk env (dirBlock fs d s r offset) ((dirBlock fs d s r offset).readcnt + 1)
            ⟨0, resid, out, touched⟩ with
        | none =>
          rw [hwalk] at h
          cases h
        | some q =>
          obtain ⟨w', e⟩ := q
          obtain ⟨hvalid, hpath⟩ :=
            walk_inside hfrag hoff htouched (Nat.zero_le _) (fun o _ hpath => hway o hpath) hwalk
          have hlt : (dirBlock fs d s r offset).readcnt < 0 + ((dirBlock fs d s r offset).readcnt + 1) := by omega
          obtain ⟨w₁, e₁, hwalk₁, hfull⟩ := @walk_ends env ⟨0, resid, out, touched⟩ _ _ hlt (Nat.zero_le _)
          rw [hwalk] at h hwalk₁
          obtain ⟨rfl, rfl⟩ : w' = w₁ ∧ e = e₁ := Prod.mk.inj (Option.some.inj hwalk₁)
          cases e with
          | ok =>
            by_cases hroom : 0 < w'.resid
            · have hdp := hfull rfl hroom
              refine ih (fun o ⟨hsize, hread', hpath'⟩ => ?_) hvalid h
              rw [hdp] at hsize hread' hpath' hpath
              rw [next_start hfrag hoff hsize] at hpath'
              exact hway o ((hpath hsize hread').trans hpath')
            · cases fuel with
              | zero => cases h
              | succ n =>
                have hdone := @readdirLoop_full fs env d s ((dirBlock fs d s r offset).boff + w'.dp) r n
                  w'.resid (by omega) w'.out w'.touched
                exact (Option.some.inj (hdone.symm.trans h)) ▸ hvalid
          | justReturn => exact (Option.some.inj h) ▸ hvalid
          | failed e => exact (Option.some.inj h) ▸ hvalid
    · exact (Option.some.inj h) ▸ htouched

theorem readdirLoop_mono {resid : ℤ} {out : List UserDirent} {touched : List Touch} {r' : ReaddirRes}
    (h : readdirLoop fs env d s r fuel offset resid out touched = some r') : ∀ t ∈ touched, t ∈ r'.touched := by
  induction fuel generalizing offset resid out touched with
  | zero => cases h
  | succ fuel ih =>
    unfold readdirLoop at h
    split at h
    · split at h
      · obtain rfl := Option.some.inj h
        exact fun t ht => ht
      · simp only at h
        split at h
        · cases h
        · next hwalk => exact fun t ht => ih h t ((walk_mono hwalk).2.2 t ht)
        · next _ hwalk =>
          obtain rfl := Option.some.inj h
          exact (walk_mono hwalk).2.2
    · obtain rfl := Option.some.inj h
      exact fun t ht => ht

/-- With room for everything, a call looks at every record on the way. -/
theorem readdirLoop_visits (hfrag : fs.fsize = fs.bsize) (henv : env.read = read)
    (hcopy : ∀ n, env.uiomove n = none) {resid : ℤ}
    {out : List UserDirent} {touched : List Touch} {r' : ReaddirRes}
    (hroom : 2000 * (d.size - fs.lblkno offset * fs.bsize : ℕ) ≤ resid)
    (h : readdirLoop fs env d s r fuel offset resid out touched = some r') (hin : ∀ t ∈ r'.touched, t.Inside)
    {o : ℕ} (hway : OnTheWay fs read d offset o) : RecordInside d.data (validEnd fs d o) s o := by
  induction fuel generalizing offset resid out touched with
  | zero => cases h
  | succ fuel ih =>
    obtain ⟨hoff, hread, hpath⟩ := hway
    have hle := @dirBlock_start_le fs offset
    have hpos : 0 < (dirBlock fs d s r offset).readcnt := by
      have hstop := @dirBlock_stop fs d s offset r hfrag hoff
      have hlt := lt_of_le_of_lt hle (@lt_validEnd fs d offset hoff)
      have hboff : (dirBlock fs d s r offset).boff = fs.lblkno offset * fs.bsize := rfl
      omega
    unfold readdirLoop at h
    rw [if_pos ⟨by omega, hoff⟩, henv, hread] at h
    simp only [skipcnt_eq_zero] at h
    cases hwalk : walk env (dirBlock fs d s r offset) ((dirBlock fs d s r offset).readcnt + 1)
        ⟨0, resid, out, touched⟩ with
    | none =>
      rw [hwalk] at h
      cases h
    | some q =>
      obtain ⟨w', e⟩ := q
      rw [hwalk] at h
      have hkeep : ∀ t ∈ w'.touched, t ∈ r'.touched := by
        cases e with
        | ok => exact readdirLoop_mono h
        | justReturn => exact (Option.some.inj h) ▸ fun t ht => ht
        | failed e => exact (Option.some.inj h) ▸ fun t ht => ht
      rcases @walk_visits fs env d s offset r ⟨0, resid, out, touched⟩ _ _ read _ hfrag hcopy hoff
            hpos hroom hwalk
        (fun t ht => hin t (hkeep t ht)) o hpath with hhere | ⟨rfl, hdp, hroom', hsize, hread', hpath'⟩
      · exact hhere
      · have hnext := @next_start fs d s offset r hfrag hoff (hdp ▸ hsize)
        rw [← hdp] at hnext
        exact ih (by rwa [hnext]) h ⟨hsize, hread', by rwa [hnext]⟩

/-- **What a call looks at lies among the valid bytes** exactly where every record on the way has what is
looked at there. -/
theorem readdir_inside_iff (fs : MExt2fs) (hfrag : fs.fsize = fs.bsize) (read : ℕ → Option Errno)
    (d : Directory) (offset : ℕ) :
    ReaddirSafe fs read d offset ↔
      ∀ o, OnTheWay fs read d offset o → RecordInside d.data (validEnd fs d o) offset o := by
  constructor
  · intro h o hway
    obtain ⟨r, hr, hin⟩ := h ⟨8, by decide, read, fun _ => none⟩ rfl
      (2000 * (d.size - fs.lblkno offset * fs.bsize : ℕ))
    exact readdirLoop_visits hfrag rfl (fun _ => rfl) (le_refl _) hr hin hway
  · intro h env henv resid
    obtain ⟨r, hr⟩ := readdir_ends fs hfrag env d offset resid
    exact ⟨r, hr, readdirLoop_inside hfrag henv h (fun t ht => absurd ht List.not_mem_nil) hr⟩

end

end Loop

/-- A block with `.` and `..`. -/
def twoDots : Directory where
  data := fun i => ([(0, 2), (4, 12), (6, 1), (7, 2), (8, 46), (12, 2), (16, 0xf4), (17, 0x0f), (18, 2), (19, 2),
    (20, 46), (21, 46)].lookup i).getD 0
  size := 4096
  nlink := 2
  number := 2
  count := 0
  offset := 0
  endoff := 0
  diroff := 0

theorem twoDots_way {o : ℕ} (h : OnTheWay volume4k (fun _ => none) twoDots 0 o) : o = 0 ∨ o = 12 := by
  obtain ⟨-, -, hway⟩ := h
  induction hway with
  | refl => exact .inl rfl
  | tail _ hnext ih =>
    cases hnext with
    | intro _ hlt _ =>
      rcases ih with rfl | rfl
      · exact .inr (by decide)
      · exact absurd hlt (by decide)

theorem twoDots_safe : ReaddirSafe volume4k (fun _ => none) twoDots 0 := by
  refine (readdir_inside_iff volume4k rfl (fun _ => none) twoDots 0).2 fun o hway => ?_
  rcases twoDots_way hway with rfl | rfl
  · exact ⟨by decide, fun _ _ => by decide, fun _ _ _ _ => by decide⟩
  · exact ⟨by decide, fun _ _ => by decide, fun _ _ _ _ => by decide⟩

/-- A block whose last record has the 12 bytes that a name of four bytes needs, and one of six bytes. -/
def lateName : Directory where
  data := fun i => ([(4, 0xf4), (5, 0x0f), (4084, 12), (4088, 12), (4090, 6)].lookup i).getD 0
  size := 4096
  nlink := 2
  number := 2
  count := 0
  offset := 0
  endoff := 0
  diroff := 0

/-- The name is copied from two bytes behind the block. -/
theorem lateName_outside : ¬ReaddirSafe volume4k (fun _ => none) lateName 0 := by
  intro h
  obtain ⟨r, hr, hin⟩ := h ⟨8, by decide, fun _ => none, fun _ => none⟩ rfl 1000
  have htouched : (ext2Readdir volume4k ⟨8, by decide, fun _ => none, fun _ => none⟩ lateName 0 1000).map
      (fun r => decide (⟨4096, 4092, 6⟩ ∈ r.touched)) = some true := by decide +kernel
  rw [hr] at htouched
  have hmem : ⟨4096, 4092, 6⟩ ∈ r.touched := of_decide_eq_true (Option.some.inj htouched)
  exact absurd (hin _ hmem 5 (by decide)) (by decide)

end Ext2fs
