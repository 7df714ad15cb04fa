import Ext2fs.DirOps
import Ext2fs.SbGeometry
import Ext2fs.Lib.Loop

/-!
# Searching a directory that nothing vouches for

`ext2_lookup_ino` on a volume that is mounted read-only, where `ext2_dirbad` prints and the search goes
on.  With `dirchk` off the only test of a record is that its length is not 0, so the contents of the
directory are arbitrary bytes, and so is what follows a block in memory.

* `Search.round` — one round of `searchloop`;
* `Search.Inside` — what the round reads lies in the bytes of the block that are in the buffer;
* `Walk` — the records by their offset in the directory alone, and `Walk.Fits`, that a record keeps
  inside its own block;
* **`search_inside_iff`** — the search ends and reads inside its blocks exactly when the records fit;
* `walk_ends` — a walk over such records ends, in every directory that is not close to 2 GiB;
* **`lookup_vget_iff`** — which inode numbers go on to `ext2_vget`; `passes_walk_iff`, where the records fit.

What the search notes about room for a new entry is left out: nothing is entered here.
-/

namespace Ext2fs.Readonly

open Bytes StateTransition Loop

/-- A directory, and what the buffers show of it. -/
structure Dir where
  /-- `ext2_blkatoff` finds the block -/
  read : ℤ → Bool
  /-- The bytes of a block, and the memory behind its buffer.  A negative offset into the buffer is
  counted from `2 ^ 32` down. -/
  buf : ℤ → Mem
  /-- `i_size` -/
  size : ℕ
  /-- `i_number` -/
  number : ℕ
  /-- `i_diroff`, an `int32_t` -/
  diroff : ℤ
  diroff_ge : -2 ^ 31 ≤ diroff
  diroff_lt : diroff < 2 ^ 31

/-! ### The search -/

/-- The variables of the search. -/
structure Search where
  /-- the block in `bp` -/
  bp : ℤ
  /-- `entryoffsetinblock` -/
  entry : ℤ
  /-- `i_offset` -/
  offset : ℤ
  /-- `endsearch` -/
  endsearch : ℤ
  /-- `numdirpasses` -/
  passes : ℕ
  deriving DecidableEq, Repr

/-- What a round of `searchloop` comes to. -/
inductive Round where
  | next (s : Search)
  | found (s : Search)
  | notfound
  | failed
  deriving DecidableEq, Repr

/-- The bytes of a block that are in its buffer: `ext2_blkatoff` reads as many as a fragment has. -/
def blockBytes (fs : MExt2fs) : ℕ := min fs.bsize fs.fsize

section

variable (bsize bytes : ℕ) (d : Dir) (name : List UInt8)

namespace Search

variable (s : Search)

/-- The header of the record at the place of the search. -/
def ino : ℕ := e2dIno (d.buf s.bp) (u32 s.entry)
def reclen : ℕ := e2dReclen (d.buf s.bp) (u32 s.entry)
def namlen : ℕ := e2dNamlen (d.buf s.bp) (u32 s.entry)
def e2dName : List UInt8 := Ext2fs.e2dName (d.buf s.bp) (u32 s.entry)

/-- The next block, if the offset is at the start of one. -/
def getBlock : Search :=
  if s.offset % bsize = 0 then { s with bp := s.offset / bsize, entry := 0 } else s

/-- The search goes on behind `n` bytes. -/
def skip (n : ℤ) : Search := { s with offset := i32 (s.offset + n), entry := i32 (s.entry + n) }

/-- `ext2_blkatoff` fails for the block that is needed. -/
def Fails : Prop := s.offset % bsize = 0 ∧ d.read (s.offset / bsize) = false

instance : Decidable (s.Fails bsize d) := inferInstanceAs (Decidable (_ ∧ _))

/-- The record carries the name. -/
def Match : Prop := s.ino d ≠ 0 ∧ s.e2dName d = name

instance : Decidable (s.Match d name) := inferInstanceAs (Decidable (_ ∧ _))

/-- One round of `searchloop`, with the second pass. -/
def round : Round :=
  if s.offset < s.endsearch then
    if s.Fails bsize d then .failed
    else
      let s := s.getBlock bsize
      if s.reclen d = 0 then .next (s.skip (bsize - s.entry % bsize))
      else if s.Match d name then .found s
      else .next (s.skip (s.reclen d))
  else if s.passes = 2 then .next { s with passes := 1, offset := 0, endsearch := d.diroff }
  else .notfound

/-- The search as a loop. -/
def step : Option Search :=
  match s.round bsize d name with
  | .next s => some s
  | _ => none

/-- The header that the round reads lies in the bytes of the block in the buffer, and so does the name if
the round compares it. -/
def Inside : Prop :=
  s.offset < s.endsearch → ¬s.Fails bsize d →
    let s := s.getBlock bsize
    0 ≤ s.entry ∧ s.entry + 8 ≤ bytes ∧
      (s.reclen d ≠ 0 → s.ino d ≠ 0 → s.namlen d = name.length →
        s.entry + 8 + s.namlen d ≤ bytes)

end Search

/-- The variables at the start of the search; the block where the last lookup was successful may be
unreadable. -/
def Dir.start (op : NameiOp) : Option Search :=
  let endsearch := i32 (roundup2 d.size bsize)
  if op ≠ .lookup ∨ d.diroff = 0 ∨ d.size < u64 d.diroff then some ⟨0, 0, 0, endsearch, 1⟩
  else if d.diroff % bsize ≠ 0 ∧ d.read (d.diroff / bsize) = false then none
  else some ⟨d.diroff / bsize, d.diroff % bsize, d.diroff, endsearch, 2⟩

/-! ### The records by their offset -/

/-- The header of the record at an offset of the directory, in the block of that offset. -/
def Dir.inoAt (o : ℤ) : ℕ := e2dIno (d.buf (o / bsize)) (o % bsize).toNat
def Dir.reclenAt (o : ℤ) : ℕ := e2dReclen (d.buf (o / bsize)) (o % bsize).toNat
def Dir.namlenAt (o : ℤ) : ℕ := e2dNamlen (d.buf (o / bsize)) (o % bsize).toNat
def Dir.nameAt (o : ℤ) : List UInt8 := e2dName (d.buf (o / bsize)) (o % bsize).toNat

/-- A place among the records. -/
structure Walk where
  offset : ℤ
  endsearch : ℤ
  passes : ℕ
  deriving DecidableEq, Repr

namespace Walk

variable (w : Walk)

/-- There is no reading the block. -/
def Fails : Prop := w.offset % bsize = 0 ∧ d.read (w.offset / bsize) = false

instance : Decidable (w.Fails bsize d) := inferInstanceAs (Decidable (_ ∧ _))

/-- The record carries the name. -/
def Match : Prop := d.inoAt bsize w.offset ≠ 0 ∧ d.nameAt bsize w.offset = name

instance : Decidable (w.Match bsize d name) := inferInstanceAs (Decidable (_ ∧ _))

/-- From a record to the next one, until one carries the name; a record of length 0 gives its block
up. -/
def step : Option Walk :=
  if w.offset < w.endsearch then
    if w.Fails bsize d then none
    else if d.reclenAt bsize w.offset = 0 then
      some { w with offset := i32 ((w.offset / bsize + 1) * bsize) }
    else if w.Match bsize d name then none
    else some { w with offset := i32 (w.offset + d.reclenAt bsize w.offset) }
  else if w.passes = 2 then some ⟨0, d.diroff, 1⟩
  else none

/-- The record keeps inside its block: its header and, if that has the right length, its name are among
the bytes in the buffer, and its end is in the block, unless it ends at the start of another block or at
the end of the search. -/
def Fits : Prop :=
  w.offset < w.endsearch → ¬w.Fails bsize d →
    w.offset % bsize + 8 ≤ bytes ∧
    (d.reclenAt bsize w.offset ≠ 0 → d.inoAt bsize w.offset ≠ 0 →
      d.namlenAt bsize w.offset = name.length →
      w.offset % bsize + 8 + d.namlenAt bsize w.offset ≤ bytes) ∧
    (d.reclenAt bsize w.offset ≠ 0 → ¬w.Match bsize d name →
      let o := i32 (w.offset + d.reclenAt bsize w.offset)
      o < w.endsearch → o % bsize = 0 ∨ o / bsize = w.offset / bsize)

end Walk

/-- Where the search starts among the records. -/
def Search.place (s : Search) : Walk := ⟨s.offset, s.endsearch, s.passes⟩

end

/-! ### The search follows the records -/

section

variable {fs : MExt2fs} {d : Dir} {name : List UInt8} {s s' : Search} {w : Walk}

/-- The search is at a record of the directory, with the record's block in the buffer. -/
structure At (fs : MExt2fs) (s : Search) (w : Walk) : Prop where
  place : s.place = w
  ge : -2 ^ 31 ≤ s.offset
  lt : s.offset < 2 ^ 31
  block : s.offset % fs.bsize ≠ 0 → s.offset < s.endsearch →
    s.bp = s.offset / fs.bsize ∧ s.entry = s.offset % fs.bsize

/-- The conversion to 32 bits keeps a block boundary. -/
theorem i32_mod (fs : MExt2fs) (x : ℤ) : i32 x % fs.bsize = x % fs.bsize := by
  have hB := fs.bsize_cases
  unfold i32
  rcases hB with hB | hB | hB <;> rw [hB] <;> split <;> omega

/-- Once its block is in the buffer, the search is where the offset says. -/
theorem At.getBlock (h : At fs s w) (hlt : s.offset < s.endsearch) :
    (s.getBlock fs.bsize).bp = s.offset / fs.bsize ∧
      (s.getBlock fs.bsize).entry = s.offset % fs.bsize ∧
      (s.getBlock fs.bsize).offset = s.offset ∧
      (s.getBlock fs.bsize).endsearch = s.endsearch ∧ (s.getBlock fs.bsize).passes = s.passes := by
  unfold Search.getBlock
  split
  next hzero => exact ⟨rfl, hzero.symm, rfl, rfl, rfl⟩
  next hzero =>
    obtain ⟨hbp, hentry⟩ := h.block hzero hlt
    exact ⟨hbp, hentry, rfl, rfl, rfl⟩

/-- The record in the buffer is the record at the offset. -/
theorem At.record (h : At fs s w) (hlt : s.offset < s.endsearch) :
    (s.getBlock fs.bsize).ino d = d.inoAt fs.bsize s.offset ∧
      (s.getBlock fs.bsize).reclen d = d.reclenAt fs.bsize s.offset ∧
      (s.getBlock fs.bsize).namlen d = d.namlenAt fs.bsize s.offset ∧
      (s.getBlock fs.bsize).e2dName d = d.nameAt fs.bsize s.offset := by
  obtain ⟨hbp, hentry, -, -, -⟩ := h.getBlock hlt
  have hB := fs.bsize_pos
  have hidx : u32 (s.getBlock fs.bsize).entry = (s.offset % fs.bsize).toNat := by
    have hcases := fs.bsize_cases
    rw [hentry]
    unfold u32
    rcases hcases with hB | hB | hB <;> rw [hB] <;> omega
  unfold Search.ino Search.reclen Search.namlen Search.e2dName
  rw [hbp, hidx]
  exact ⟨rfl, rfl, rfl, rfl⟩

/-- A record of the search is the record at its offset. -/
theorem At.match_iff (h : At fs s w) (hlt : s.offset < s.endsearch) :
    (s.getBlock fs.bsize).Match d name ↔ w.Match fs.bsize d name := by
  obtain ⟨hino, -, -, hname⟩ := h.record (d := d) hlt
  have hplace := h.place
  subst hplace
  unfold Search.Match
  rw [hino, hname]
  rfl

theorem reclenAt_lt (d : Dir) (B : ℕ) (o : ℤ) : d.reclenAt B o < 2 ^ 16 :=
  le_lt 2 (d.buf (o / B)) ((o % B).toNat + 4)

/-- Behind a record that ends in its own block, the offset in the buffer is the offset in the block. -/
theorem entry_in_block {o n : ℤ} (hsame : i32 (o + n) / fs.bsize = o / fs.bsize) :
    i32 (o % fs.bsize + n) = i32 (o + n) % fs.bsize := by
  have hB := fs.bsize_cases
  unfold i32 at hsame ⊢
  rcases hB with hB | hB | hB <;> rw [hB] at hsame ⊢ <;> split at hsame <;> split <;> omega

/-- Behind a record that ends in another block, the offset in the buffer is not in the block. -/
theorem entry_behind {o n : ℤ} (hge : -2 ^ 31 ≤ o) (hlt : o < 2 ^ 31) (hn : 0 ≤ n) (hn' : n < 2 ^ 17)
    (hother : i32 (o + n) / fs.bsize ≠ o / fs.bsize) :
    fs.bsize ≤ i32 (o % fs.bsize + n) := by
  have hB := fs.bsize_cases
  unfold i32 at hother ⊢
  rcases hB with hB | hB | hB <;> rw [hB] at hother ⊢ <;> split at hother <;> split <;> omega

/-- The search stays at the records over a skip that ends in the block of the record, at the start of
a block, or at the end of the search. -/
theorem At.skip (h : At fs s w) (hlt : s.offset < s.endsearch) {n : ℤ}
    (hend : i32 (s.offset + n) < s.endsearch → i32 (s.offset + n) % fs.bsize = 0 ∨
      i32 (s.offset + n) / fs.bsize = s.offset / fs.bsize) :
    At fs ((s.getBlock fs.bsize).skip n) { w with offset := i32 (s.offset + n) } := by
  obtain ⟨hbp, hentry, hoffset, hendsearch, hpasses⟩ := h.getBlock hlt
  have hplace := h.place
  subst hplace
  refine ⟨?_, i32_ge _, i32_lt _, fun hmod hlt' => ?_⟩
  · show (⟨i32 ((s.getBlock fs.bsize).offset + n), (s.getBlock fs.bsize).endsearch,
      (s.getBlock fs.bsize).passes⟩ : Walk) = ⟨i32 (s.offset + n), s.endsearch, s.passes⟩
    rw [hoffset, hendsearch, hpasses]
  · replace hmod : i32 ((s.getBlock fs.bsize).offset + n) % fs.bsize ≠ 0 := hmod
    replace hlt' : i32 ((s.getBlock fs.bsize).offset + n) < (s.getBlock fs.bsize).endsearch := hlt'
    rw [hoffset] at hmod
    rw [hoffset, hendsearch] at hlt'
    have hsame := (hend hlt').resolve_left hmod
    show (s.getBlock fs.bsize).bp = i32 ((s.getBlock fs.bsize).offset + n) / fs.bsize ∧
      i32 ((s.getBlock fs.bsize).entry + n) = i32 ((s.getBlock fs.bsize).offset + n) % fs.bsize
    rw [hbp, hentry, hoffset, hsame]
    exact ⟨rfl, entry_in_block hsame⟩

/-! ### A round of the search and of the walk -/

theorem search_failed (hlt : s.offset < s.endsearch) (hread : s.Fails fs.bsize d) :
    s.step fs.bsize d name = none := by
  unfold Search.step Search.round
  rw [if_pos hlt, if_pos hread]

theorem search_over (hlt : ¬s.offset < s.endsearch) :
    s.step fs.bsize d name =
      if s.passes = 2 then some { s with passes := 1, offset := 0, endsearch := d.diroff }
      else none := by
  unfold Search.step Search.round
  rw [if_neg hlt]
  by_cases hpasses : s.passes = 2
  · rw [if_pos hpasses, if_pos hpasses]
  · rw [if_neg hpasses, if_neg hpasses]

/-- What the search does at a record. -/
theorem At.search_record (h : At fs s w) (hlt : s.offset < s.endsearch)
    (hread : ¬s.Fails fs.bsize d) :
    s.step fs.bsize d name =
      if d.reclenAt fs.bsize s.offset = 0 then
        some ((s.getBlock fs.bsize).skip (fs.bsize - s.offset % fs.bsize))
      else if s.place.Match fs.bsize d name then none
      else some ((s.getBlock fs.bsize).skip (d.reclenAt fs.bsize s.offset)) := by
  obtain ⟨-, hreclen, -, -⟩ := h.record (d := d) hlt
  obtain ⟨-, hentry, -, -, -⟩ := h.getBlock hlt
  have hmatch_iff : (s.getBlock fs.bsize).Match d name ↔ s.place.Match fs.bsize d name :=
    h.place ▸ h.match_iff hlt
  unfold Search.step Search.round
  rw [if_pos hlt, if_neg hread]
  dsimp only
  rw [hreclen, hentry, Int.emod_emod]
  by_cases hzero : d.reclenAt fs.bsize s.offset = 0
  · rw [if_pos hzero, if_pos hzero]
  rw [if_neg hzero, if_neg hzero]
  by_cases hmatch : s.place.Match fs.bsize d name
  · rw [if_pos hmatch, if_pos (hmatch_iff.2 hmatch)]
  · rw [if_neg hmatch, if_neg (hmatch_iff.not.2 hmatch)]

theorem walk_failed (hlt : w.offset < w.endsearch) (hread : w.Fails fs.bsize d) :
    w.step fs.bsize d name = none := by
  unfold Walk.step
  rw [if_pos hlt, if_pos hread]

theorem walk_over (hlt : ¬w.offset < w.endsearch) :
    w.step fs.bsize d name = if w.passes = 2 then some ⟨0, d.diroff, 1⟩ else none := by
  unfold Walk.step
  rw [if_neg hlt]

theorem walk_record (hlt : w.offset < w.endsearch) (hread : ¬w.Fails fs.bsize d) :
    w.step fs.bsize d name =
      if d.reclenAt fs.bsize w.offset = 0 then
        some { w with offset := i32 ((w.offset / fs.bsize + 1) * fs.bsize) }
      else if w.Match fs.bsize d name then none
      else some { w with offset := i32 (w.offset + d.reclenAt fs.bsize w.offset) } := by
  unfold Walk.step
  rw [if_pos hlt, if_neg hread]

/-- The rest of a block leads to the next one. -/
theorem rest_of_block (o : ℤ) (B : ℕ) : o + (B - o % B) = (o / B + 1) * B := by
  have hmod := Int.emod_add_mul_ediv o B
  rw [add_mul, one_mul, mul_comm]
  omega

/-- **As long as the records fit, the search and the walk go together.** -/
theorem search_lockstep (fs : MExt2fs) (d : Dir) (name : List UInt8) :
    Lockstep (Search.step fs.bsize d name) (Walk.step fs.bsize d name) (At fs)
      (Walk.Fits fs.bsize (blockBytes fs) d name) := by
  intro s w h hfits
  have hplace := h.place
  subst hplace
  by_cases hlt : s.offset < s.endsearch
  · have hltw : s.place.offset < s.place.endsearch := hlt
    by_cases hread : s.Fails fs.bsize d
    · rw [search_failed hlt hread, walk_failed hltw hread]
      exact .none
    · have hreadw : ¬s.place.Fails fs.bsize d := hread
      rw [h.search_record hlt hread, walk_record hltw hreadw]
      show Option.Rel _ _ (if d.reclenAt fs.bsize s.offset = 0 then _ else _)
      by_cases hzero : d.reclenAt fs.bsize s.offset = 0
      · rw [if_pos hzero, if_pos hzero]
        have hskip := h.skip (n := fs.bsize - s.offset % fs.bsize) hlt fun _ => .inl (by
          rw [i32_mod, rest_of_block]
          exact Int.mul_emod_left _ _)
        rw [rest_of_block] at hskip
        exact .some hskip
      · rw [if_neg hzero, if_neg hzero]
        by_cases hmatch : s.place.Match fs.bsize d name
        · rw [if_pos hmatch, if_pos hmatch]
          exact .none
        · rw [if_neg hmatch, if_neg hmatch]
          exact .some (h.skip hlt ((hfits hlt hread).2.2 hzero hmatch))
  · -- the pass is over
    rw [search_over hlt, walk_over (show ¬s.place.offset < s.place.endsearch from hlt)]
    show Option.Rel _ _ (if s.passes = 2 then _ else _)
    by_cases hpasses : s.passes = 2
    · rw [if_pos hpasses, if_pos hpasses]
      refine .some ⟨rfl, ?_, ?_, fun hmod => absurd (Int.zero_emod _) hmod⟩
      · show -2 ^ 31 ≤ (0 : ℤ)
        decide
      · show (0 : ℤ) < 2 ^ 31
        decide
    · rw [if_neg hpasses, if_neg hpasses]
      exact .none

/-! ### Reading inside the blocks -/

/-- What a round reads of a record that fits lies in the block in the buffer. -/
theorem At.inside (h : At fs s w) (hfits : w.Fits fs.bsize (blockBytes fs) d name) :
    s.Inside fs.bsize (blockBytes fs) d name := by
  have hplace := h.place
  subst hplace
  intro hlt hread
  obtain ⟨hino, hreclen, hnamlen, -⟩ := h.record (d := d) hlt
  obtain ⟨-, hentry, -, -, -⟩ := h.getBlock hlt
  obtain ⟨hheader, hname, -⟩ := hfits hlt hread
  have hnonneg := Int.emod_nonneg s.offset (Int.natCast_pos.2 fs.bsize_pos).ne'
  dsimp only
  rw [hino, hreclen, hnamlen, hentry]
  exact ⟨hnonneg, hheader, hname⟩

/-- A record fits when this round and the next one read inside the block in the buffer. -/
theorem At.fits (h : At fs s w) (hin : s.Inside fs.bsize (blockBytes fs) d name)
    (hnext : ∀ s', s.step fs.bsize d name = some s' → s'.Inside fs.bsize (blockBytes fs) d name) :
    w.Fits fs.bsize (blockBytes fs) d name := by
  have hplace := h.place
  subst hplace
  intro hlt hread
  replace hlt : s.offset < s.endsearch := hlt
  replace hread : ¬s.Fails fs.bsize d := hread
  obtain ⟨hino, hreclen, hnamlen, -⟩ := h.record (d := d) hlt
  obtain ⟨hbp, hentry, hoffset, hendsearch, -⟩ := h.getBlock hlt
  have hthis := hin hlt hread
  dsimp only at hthis
  rw [hino, hreclen, hnamlen, hentry] at hthis
  refine ⟨hthis.2.1, hthis.2.2, fun hzero hmatch hlt' => ?_⟩
  replace hzero : d.reclenAt fs.bsize s.offset ≠ 0 := hzero
  by_contra hcross
  obtain ⟨hmod, hother⟩ := not_or.1 hcross
  replace hmod : i32 (s.offset + d.reclenAt fs.bsize s.offset) % fs.bsize ≠ 0 := hmod
  replace hother : i32 (s.offset + d.reclenAt fs.bsize s.offset) / fs.bsize ≠
    s.offset / fs.bsize := hother
  -- the next round reads its header from the old block, behind its end
  have hstep : s.step fs.bsize d name = _ := h.search_record hlt hread
  rw [if_neg hzero, if_neg hmatch] at hstep
  have hlen := reclenAt_lt d fs.bsize s.offset
  have hbehind : (fs.bsize : ℤ) ≤
      i32 (s.offset % fs.bsize + d.reclenAt fs.bsize s.offset) :=
    entry_behind h.ge h.lt (by omega) (by omega) hother
  generalize hs' : (s.getBlock fs.bsize).skip (d.reclenAt fs.bsize s.offset) = s' at hstep
  have hoffset' : s'.offset = i32 (s.offset + d.reclenAt fs.bsize s.offset) := by
    rw [← hs', ← hoffset]
    rfl
  have hentry' : s'.entry = i32 (s.offset % fs.bsize + d.reclenAt fs.bsize s.offset) := by
    rw [← hs', ← hentry]
    rfl
  have hendsearch' : s'.endsearch = s.endsearch := by
    rw [← hs', ← hendsearch]
    rfl
  have hget : s'.getBlock fs.bsize = s' := by
    unfold Search.getBlock
    rw [if_neg]
    rw [hoffset']
    exact hmod
  have hin' := hnext s' hstep (by rw [hoffset', hendsearch']; exact hlt') (by
    rintro ⟨hmod', -⟩
    rw [hoffset'] at hmod'
    exact hmod hmod')
  dsimp only at hin'
  rw [hget, hentry'] at hin'
  have hbytes : blockBytes fs ≤ fs.bsize := Nat.min_le_left _ _
  omega

/-- The search starts at the first record of the walk. -/
theorem start_at {op : NameiOp} (h : d.start fs.bsize op = some s) : At fs s s.place := by
  unfold Dir.start at h
  dsimp only at h
  split_ifs at h with hfirst hread
  · cases h
    refine ⟨rfl, ?_, ?_, fun hmod => absurd (Int.zero_emod _) hmod⟩
    · show -2 ^ 31 ≤ (0 : ℤ)
      decide
    · show (0 : ℤ) < 2 ^ 31
      decide
  · cases h
    exact ⟨rfl, d.diroff_ge, d.diroff_lt, fun _ _ => ⟨rfl, rfl⟩⟩

/-- **The search ends and reads inside its blocks exactly when the records fit**: when every record the
walk comes to keeps inside its own block and the bytes of it that are read, and the walk ends. -/
theorem search_inside_iff (fs : MExt2fs) (d : Dir) (op : NameiOp) (name : List UInt8) :
    (∀ s, d.start fs.bsize op = some s → (eval (Search.step fs.bsize d name) s).Dom ∧
      ∀ s', Reaches (Search.step fs.bsize d name) s s' → s'.Inside fs.bsize (blockBytes fs) d name) ↔
    ∀ s, d.start fs.bsize op = some s → (eval (Walk.step fs.bsize d name) s.place).Dom ∧
      ∀ w, Reaches (Walk.step fs.bsize d name) s.place w → w.Fits fs.bsize (blockBytes fs) d name := by
  apply forall_congr'
  intro s
  apply imp_congr_right
  intro hs
  exact (search_lockstep fs d name).safe_iff (start_at hs) (fun _ _ h hfits => h.inside hfits)
    fun _ _ h hin hnext => h.fits hin hnext

/-! ### The walk ends -/

/-- The offsets stay clear of `2 ^ 31`. -/
structure Clear (d : Dir) (w : Walk) : Prop where
  ge : -2 ^ 31 ≤ w.offset
  endsearch : w.endsearch ≤ 2 ^ 31 - 2 ^ 16
  second : w.passes = 2 → d.diroff ≤ 2 ^ 31 - 2 ^ 16

/-- A record ends behind its start, and before `2 ^ 31`. -/
theorem Clear.next (h : Clear d w) (hlt : w.offset < w.endsearch) {n : ℤ} (hn : 0 < n)
    (hn' : n < 2 ^ 16) :
    i32 (w.offset + n) = w.offset + n ∧ Clear d { w with offset := i32 (w.offset + n) } := by
  have hge := h.ge
  have hend := h.endsearch
  have hsame : i32 (w.offset + n) = w.offset + n := i32_of_lt (by omega) (by omega)
  refine ⟨hsame, ?_, hend, h.second⟩
  show -2 ^ 31 ≤ i32 (w.offset + n)
  omega

/-- One step of the walk: further on in the directory, or on to the second pass. -/
theorem Clear.step (h : Clear d w) {w' : Walk} (hw : w.step fs.bsize d name = some w') :
    Clear d w' ∧ (w'.passes = w.passes ∧ w'.offset < 2 ^ 31 ∧ w.offset < w'.offset ∨
      w.passes = 2 ∧ w'.passes = 1 ∧ w'.offset = 0) := by
  by_cases hlt : w.offset < w.endsearch
  · by_cases hread : w.Fails fs.bsize d
    · rw [walk_failed hlt hread] at hw
      exact absurd hw (by simp)
    rw [walk_record hlt hread] at hw
    by_cases hzero : d.reclenAt fs.bsize w.offset = 0
    · rw [if_pos hzero] at hw
      have hB : 0 < (fs.bsize : ℤ) := Int.natCast_pos.2 fs.bsize_pos
      have hcases := fs.bsize_cases
      have hmod := Int.emod_lt_of_pos w.offset hB
      have hnonneg := Int.emod_nonneg w.offset hB.ne'
      rw [← rest_of_block] at hw
      obtain ⟨hsame, hclear⟩ := h.next (n := fs.bsize - w.offset % fs.bsize) hlt (by omega) (by omega)
      cases hw
      refine ⟨hclear, .inl ⟨rfl, i32_lt _, ?_⟩⟩
      show w.offset < i32 _
      rw [hsame]
      omega
    · rw [if_neg hzero] at hw
      split_ifs at hw
      have hlen := reclenAt_lt d fs.bsize w.offset
      obtain ⟨hsame, hclear⟩ := h.next (n := d.reclenAt fs.bsize w.offset) hlt (by omega) (by omega)
      cases hw
      refine ⟨hclear, .inl ⟨rfl, i32_lt _, ?_⟩⟩
      show w.offset < i32 _
      rw [hsame]
      omega
  · rw [walk_over hlt] at hw
    split_ifs at hw with hpasses
    cases hw
    refine ⟨⟨?_, h.second hpasses, fun h2 => ?_⟩, .inr ⟨hpasses, rfl, rfl⟩⟩
    · show -2 ^ 31 ≤ (0 : ℤ)
      decide
    · exact absurd h2 (by show ¬(1 = 2); decide)

/-- What the walk has left to do. -/
def Walk.left (w : Walk) : ℕ := (if w.passes = 2 then 2 ^ 33 else 0) + (2 ^ 31 - w.offset).toNat

/-- **The walk ends**, whatever the records are, in a directory that is not within 128 KiB of 2 GiB. -/
theorem walk_ends {op : NameiOp} (hsize : d.size ≤ 2 ^ 31 - 2 ^ 17)
    (h : d.start fs.bsize op = some s) : (eval (Walk.step fs.bsize d name) s.place).Dom := by
  have hend : i32 (roundup2 d.size fs.bsize) ≤ 2 ^ 31 - 2 ^ 16 := by
    have hB := fs.bsize_cases
    unfold roundup2 i32
    rcases hB with hB | hB | hB <;> rw [hB] <;> split <;> omega
  have hstart : Clear d s.place := by
    unfold Dir.start at h
    dsimp only at h
    split_ifs at h with hfirst hread
    · cases h
      refine ⟨?_, hend, fun h2 => absurd h2 (by show ¬(1 = 2); decide)⟩
      show -2 ^ 31 ≤ (0 : ℤ)
      decide
    · cases h
      refine ⟨d.diroff_ge, hend, fun _ => ?_⟩
      have hle : u64 d.diroff ≤ d.size := by
        by_contra hgt
        exact hfirst (.inr (.inr (not_le.1 hgt)))
      have hge := d.diroff_ge
      have hlt := d.diroff_lt
      unfold u64 at hle
      omega
  apply ends_of_measure Walk.left
  intro u v hu hv
  have hclear : Clear d u := visits_of_invariant hstart (fun _ _ h hv => (h.step hv).1) hu
  obtain ⟨hclear', hcase⟩ := hclear.step hv
  have hge := hclear.ge
  have hge' := hclear'.ge
  unfold Walk.left
  rcases hcase with ⟨hpasses, hlt, hgt⟩ | ⟨h2, h1, hzero⟩
  · rw [hpasses]
    split <;> omega
  · rw [h2, h1, hzero]
    simp only [if_true]
    rw [if_neg (by decide)]
    omega

end

/-- A directory of one block with one record, of a file `x`. -/
def oneRecord (bsize ino reclen : ℕ) : Dir where
  read _ := true
  buf _ := put 1 (put 1 (put 2 (put 4 (fun _ => 0) 0 ino) 4 reclen) 6 1) 8 120
  size := bsize
  number := 2
  diroff := 0
  diroff_ge := by decide
  diroff_lt := by decide

/-- A record that leaves four bytes of its block: the next header is read across the block's end. -/
theorem shortRest_outside :
    ¬∀ s, (oneRecord 4096 12 4092).start volume4k.bsize .lookup = some s →
      (eval (Search.step volume4k.bsize (oneRecord 4096 12 4092) [121]) s).Dom ∧
      ∀ s', Reaches (Search.step volume4k.bsize (oneRecord 4096 12 4092) [121]) s s' →
        s'.Inside volume4k.bsize (blockBytes volume4k) (oneRecord 4096 12 4092) [121] := by
  intro h
  obtain ⟨-, hin⟩ := h ⟨0, 0, 0, 4096, 1⟩ (by decide)
  have hnext : Search.step volume4k.bsize (oneRecord 4096 12 4092) [121] ⟨0, 0, 0, 4096, 1⟩ =
      some ⟨0, 4092, 4092, 4096, 1⟩ := by decide +kernel
  have hheader := hin _ (Visits.next (Visits.refl _ _) hnext) (by decide) (by decide)
  exact absurd hheader.2.1 (by decide)

/-! ### The inode numbers that are found -/

/-- The inode number that `ext2_lookup_ino` hands to `ext2_vget` when a record is found: the ways out
for the last component of a removal, for that of a rename, and for every other lookup.  The directory
itself is not fetched again, and is not to be replaced. -/
def vgetArg (number : ℕ) (op : NameiOp) (last : Bool) (ino : ℕ) : Option ℕ :=
  if op = .delete ∧ last then
    if number = ino then none else some ino
  else if op = .rename ∧ last then
    if number = ino then none else some ino
  else if number = ino then none else some ino

/-- A lookup passes the number to `ext2_vget`. -/
def Passes (bsize : ℕ) (d : Dir) (op : NameiOp) (last : Bool) (name : List UInt8) (ino : ℕ) : Prop :=
  ∃ s₀ s s', d.start bsize op = some s₀ ∧ Reaches (Search.step bsize d name) s₀ s ∧
    s.round bsize d name = .found s' ∧ vgetArg d.number op last (s'.ino d) = some ino

/-- A record that the lookup comes to is in use and carries the name. -/
structure Carries (bsize : ℕ) (d : Dir) (op : NameiOp) (name : List UInt8) (s : Search) : Prop where
  visited : ∃ s₀, d.start bsize op = some s₀ ∧ Reaches (Search.step bsize d name) s₀ s
  readable : s.offset < s.endsearch ∧ ¬s.Fails bsize d
  record : (s.getBlock bsize).reclen d ≠ 0
  carries : (s.getBlock bsize).Match d name

/-- The same of the records by their offset alone. -/
structure CarriedAt (bsize : ℕ) (d : Dir) (op : NameiOp) (name : List UInt8) (w : Walk) : Prop where
  visited : ∃ s₀, d.start bsize op = some s₀ ∧ Reaches (Walk.step bsize d name) s₀.place w
  readable : w.offset < w.endsearch ∧ ¬w.Fails bsize d
  record : d.reclenAt bsize w.offset ≠ 0
  carries : w.Match bsize d name

section

variable {B : ℕ} {d : Dir} {op : NameiOp} {last : Bool} {name : List UInt8} {s s' : Search} {ino : ℕ}

/-- The search stops at a record exactly when it carries the name. -/
theorem round_found_iff : s.round B d name = .found s' ↔
    (s.offset < s.endsearch ∧ ¬s.Fails B d) ∧ (s.getBlock B).reclen d ≠ 0 ∧
      (s.getBlock B).Match d name ∧ s' = s.getBlock B := by
  unfold Search.round
  by_cases hlt : s.offset < s.endsearch
  swap
  · rw [if_neg hlt]
    split_ifs <;> simp [hlt]
  rw [if_pos hlt]
  by_cases hread : s.Fails B d
  · rw [if_pos hread]
    simp [hread]
  rw [if_neg hread]
  dsimp only
  by_cases hzero : (s.getBlock B).reclen d = 0
  · rw [if_pos hzero]
    simp [hzero]
  rw [if_neg hzero]
  by_cases hmatch : (s.getBlock B).Match d name
  · rw [if_pos hmatch]
    simp [hlt, hread, hzero, hmatch, eq_comm]
  · rw [if_neg hmatch]
    simp [hmatch]

/-- Every way out passes the number on unless it is the directory's own. -/
theorem vgetArg_eq (number : ℕ) (op : NameiOp) (last : Bool) (ino : ℕ) :
    vgetArg number op last ino = if number = ino then none else some ino := by
  unfold vgetArg
  split_ifs <;> rfl

theorem passes_iff : Passes B d op last name ino ↔
    ∃ s, Carries B d op name s ∧ (s.getBlock B).ino d = ino ∧ d.number ≠ ino := by
  unfold Passes
  constructor
  · rintro ⟨s₀, s, s', hstart, hs, hfound, harg⟩
    obtain ⟨hread, hlen, hmatch, rfl⟩ := round_found_iff.1 hfound
    rw [vgetArg_eq] at harg
    split_ifs at harg with hself
    have hino := Option.some.inj harg
    exact ⟨s, ⟨⟨s₀, hstart, hs⟩, hread, hlen, hmatch⟩, hino, hino ▸ hself⟩
  · rintro ⟨s, ⟨⟨s₀, hstart, hs⟩, hread, hlen, hmatch⟩, rfl, hself⟩
    refine ⟨s₀, s, _, hstart, hs, round_found_iff.2 ⟨hread, hlen, hmatch, rfl⟩, ?_⟩
    rw [vgetArg_eq, if_neg hself]

/-- **Where the records fit**, the numbers that are passed on are those of the records in use with the name
that the walk comes to. -/
theorem passes_walk_iff {fs : MExt2fs} (hfits : ∀ s₀, d.start fs.bsize op = some s₀ →
      ∀ w, Reaches (Walk.step fs.bsize d name) s₀.place w → w.Fits fs.bsize (blockBytes fs) d name) :
    Passes fs.bsize d op last name ino ↔
      ∃ w, CarriedAt fs.bsize d op name w ∧ d.inoAt fs.bsize w.offset = ino ∧ d.number ≠ ino := by
  rw [passes_iff]
  constructor
  · rintro ⟨s, ⟨⟨s₀, hstart, hs⟩, hread, hlen, hmatch⟩, hino, hself⟩
    obtain ⟨w, hw, hat⟩ := (search_lockstep fs d name).forth (start_at hstart) (hfits s₀ hstart) hs
    obtain ⟨hino', hreclen, -⟩ := hat.record (d := d) hread.1
    have hcarries := (hat.match_iff hread.1).1 hmatch
    have hplace := hat.place
    subst hplace
    exact ⟨s.place, ⟨⟨s₀, hstart, hw⟩, hread, hreclen ▸ hlen, hcarries⟩, hino'.symm.trans hino, hself⟩
  · rintro ⟨w, ⟨⟨s₀, hstart, hw⟩, hread, hlen, hmatch⟩, hino, hself⟩
    obtain ⟨s, hs, hat⟩ := (search_lockstep fs d name).back (start_at hstart)
      (fun _ w' _ hw' _ => hfits s₀ hstart w' hw') hw
    have hplace := hat.place
    subst hplace
    obtain ⟨hino', hreclen, -⟩ := hat.record (d := d) hread.1
    exact ⟨s, ⟨⟨s₀, hstart, hs⟩, hread, hreclen ▸ hlen, (hat.match_iff hread.1).2 hmatch⟩,
      hino'.trans hino, hself⟩

end

/-- An inode number that `ext2_vget` can take: one the volume has, whose group has a descriptor. -/
structure InRange (es : Superblock) (ino : ℕ) : Prop where
  pos : 1 ≤ ino
  le : ino ≤ es.e2fs_icount.toNat
  group : ∀ g : Geometry, Sound es g → g.inoToCg ino < g.gcount

theorem inRange_iff (es : Superblock) (ino : ℕ) :
    InRange es ino ↔ 1 ≤ ino ∧ ino ≤ es.e2fs_icount.toNat :=
  ⟨fun h => ⟨h.pos, h.le⟩, fun h => ⟨h.1, h.2, fun _ hg => hg.inoToCg_lt ino h.1 h.2⟩⟩

/-- **A lookup passes only numbers of the volume to `ext2_vget` exactly when** the records that carry
the name it is looking for have such numbers: no other test is made of them. -/
theorem lookup_vget_iff (es : Superblock) (bsize : ℕ) (d : Dir) (op : NameiOp) (last : Bool)
    (name : List UInt8) :
    (∀ ino, Passes bsize d op last name ino → InRange es ino) ↔
      ∀ s, Carries bsize d op name s →
        (s.getBlock bsize).ino d = d.number ∨ (s.getBlock bsize).ino d ≤ es.e2fs_icount.toNat := by
  constructor
  · intro h s hs
    by_cases hself : d.number = (s.getBlock bsize).ino d
    · exact .inl hself.symm
    · exact .inr (h _ (passes_iff.2 ⟨s, hs, rfl, hself⟩)).le
  · intro h ino hpass
    obtain ⟨s, hs, rfl, hself⟩ := passes_iff.1 hpass
    rw [inRange_iff]
    refine ⟨?_, (h s hs).resolve_left (Ne.symm hself)⟩
    have hino : (s.getBlock bsize).ino d ≠ 0 := hs.carries.1
    omega

/-- A name that stands for inode 5000 of a volume of 2048: `ext2_vget` is called for it, and its group
is behind the end of the descriptor table. -/
theorem wildEntry_passes :
    Passes 1024 (oneRecord 1024 5000 1024) .lookup true [120] 5000 ∧ ¬InRange plainSb 5000 ∧
      plainMount.gcount ≤ plainMount.inoToCg 5000 := by
  refine ⟨?_, fun h => absurd h.le (by decide), by decide⟩
  exact ⟨⟨0, 0, 0, 1024, 1⟩, ⟨0, 0, 0, 1024, 1⟩, ⟨0, 0, 0, 1024, 1⟩, by decide, Visits.refl _ _,
    by decide +kernel, by decide +kernel⟩

end Ext2fs.Readonly
