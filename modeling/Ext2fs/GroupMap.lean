import Ext2fs.ClusterAcct

/-!
# Finding a block or an inode in a group

`ext2_alloccg` and `ext2_nodealloccg` look for a clear bit in the bitmap of a group: the preferred one,
for a block then a run of eight, and last the first clear bit from the preferred byte on, with
`ext2_mapsearch`.  The searches wrap around at the end of the map.  The conversions of the preference are
signed: `dtog` and `dtogd` of a block below `e2fs_first_dblock` round towards zero.

* `eightLoop_spec` — the scan finds the first of eight clear bits, if its bytes have eight of them;
* `eightPasses_spec` — what the two passes of the scan look at;
* `searchBytes_spec` — **the search by bytes misses nothing**.
-/

namespace Ext2fs

open MaxRuns

/-- `dtog`, with the signed division of a `daddr64_t`. -/
def MExt2fs.dtog64 (fs : MExt2fs) (d : ℤ) : ℤ := (d - fs.firstDblock).tdiv fs.bpg

/-- `dtogd`, with the signed remainder. -/
def MExt2fs.dtogd64 (fs : MExt2fs) (d : ℤ) : ℤ := (d - fs.firstDblock).tmod fs.bpg

/-- `ino_to_cg`, for the number of an inode as a `daddr64_t`. -/
def MExt2fs.inoToCg64 (fs : MExt2fs) (x : ℤ) : ℤ := (x - 1).tdiv fs.ipg

/-- The place of an inode in the bitmap of its group. -/
def MExt2fs.inoBit64 (fs : MExt2fs) (x : ℤ) : ℤ := (x - 1).tmod fs.ipg

namespace GroupMap

/-! ### The functions -/

/-- What the search of a bitmap comes to. -/
inductive Search where
  /-- a bit -/
  | bit (i : ℕ)
  /-- "map corrupted" -/
  | corrupted
  /-- a place outside of the map is read, or a bit of it with a negative number -/
  | outside
  deriving DecidableEq, Repr

/-- The scan for eight clear bits: `rounds` bytes from `loc` on. -/
def eightLoop (map : Bitmap) : ℕ → ℕ → ℕ → ℕ → Option ℕ
  | 0, _, _, _ => none
  | rounds + 1, loc, runstart, runlen =>
      if map loc = 0xff then eightLoop map rounds (loc + 1) runstart 0
      else if runlen = 0 then
        let bit := ext2Fls (map loc)
        if 8 ≤ NBBY - bit then some (loc * NBBY + bit)
        else eightLoop map rounds (loc + 1) (loc * NBBY + bit) (NBBY - bit)
      else if map loc = 0 then
        if 8 ≤ runlen + NBBY then some runstart
        else eightLoop map rounds (loc + 1) runstart (runlen + NBBY)
      else if 8 ≤ runlen + (ffs (map loc) - 1) then some runstart
      else
        let bit := ext2Fls (map loc)
        if 8 ≤ NBBY - bit then some (loc * NBBY + bit)
        else eightLoop map rounds (loc + 1) (loc * NBBY + bit) (NBBY - bit)

/-- The two passes of the scan: from `start` to `end`, and again up to `start`. -/
def eightPasses (map : Bitmap) (bytes start : ℕ) : Option ℕ :=
  match eightLoop map (bytes - start - start) start 0 0 with
  | some bno => some bno
  | none => if start ≠ 0 then eightLoop map start 0 0 0 else none

/-- The search by bytes: from `start` to the end of the map, and again up to `start`. -/
def searchBytes (map : Bitmap) (start len : ℕ) : Search :=
  match memcchr map 0xff start len with
  | some loc => .bit (loc * NBBY + (ffs (~~~map loc) - 1))
  | none =>
      match memcchr map 0xff 0 (start + 1) with
      | some loc => .bit (loc * NBBY + (ffs (~~~map loc) - 1))
      | none => .corrupted

/-- The byte where a search for a block starts. -/
def startByte (fs : MExt2fs) (bpref : ℤ) : ℤ :=
  if bpref ≠ 0 then (fs.dtogd64 bpref).tdiv NBBY else 0

/-- `ext2_mapsearch` -/
def ext2Mapsearch (fs : MExt2fs) (map : Bitmap) (bpref : ℤ) : Search :=
  let start := startByte fs bpref
  let len := (howmanyBytes fs.fpg : ℤ) - start
  if start < 0 ∨ len < 0 then .outside else searchBytes map start.toNat len.toNat

/-- The search of `ext2_alloccg` where the preferred block is not free. -/
def searchFrom (fs : MExt2fs) (map : Bitmap) (bpref : ℤ) : Search :=
  let start := startByte fs bpref
  if start < 0 then .outside
  else
    match eightPasses map (howmanyBytes fs.fpg) start.toNat with
    | some bno => .bit bno
    | none => ext2Mapsearch fs map bpref

/-- The search of `ext2_alloccg` up to `gotit`. -/
def searchBlock (fs : MExt2fs) (map : Bitmap) (cg : ℕ) (bpref : ℤ) : Search :=
  let bpref := if fs.dtog64 bpref ≠ cg then 0 else bpref
  if bpref ≠ 0 then
    let bpref := fs.dtogd64 bpref
    if bpref < 0 then .outside
    else if map.isclr bpref.toNat then .bit bpref.toNat
    else searchFrom fs map bpref
  else searchFrom fs map bpref

/-- The search of `ext2_nodealloccg` up to `gotit`. -/
def searchInode (fs : MExt2fs) (map : Bitmap) (ipref : ℤ) : Search :=
  let ipref := ipref - 1
  let ipref := if ipref = -1 then 0 else ipref
  if ipref ≠ 0 then
    let ipref := ipref.tmod fs.ipg
    if ipref < 0 then .outside
    else if map.isclr ipref.toNat then .bit ipref.toNat
    else searchBytes map (ipref.toNat / NBBY) (howmanyBytes (fs.ipg - ipref.toNat))
  else searchBytes map 0 (howmanyBytes fs.ipg)

/-- The counters and the bitmaps of a group, as the searches find and leave them. -/
structure Group where
  /-- the bitmap of the blocks -/
  bbmap : Bitmap
  /-- the bitmap of the inodes -/
  ibmap : Bitmap
  /-- `ext2bgd_nbfree` -/
  nbfree : ℕ
  /-- `ext2bgd_nifree` -/
  nifree : ℕ
  /-- `ext2bgd_ndirs` -/
  ndirs : ℕ
  cs : Csum

/-- The counters of the volume. -/
structure Totals where
  /-- `e2fs_fbcount` -/
  fbcount : ℕ
  /-- `e2fs_ficount` -/
  ficount : ℕ
  /-- `e2fs_total_dir` -/
  totalDir : ℕ

/-- What a function returns, with the group and the totals it leaves. -/
inductive Outcome where
  | ret (number : ℤ) (gd : Group) (sb : Totals)
  /-- "map corrupted" -/
  | corrupted
  /-- the map is left -/
  | outside

/-- The number of a block of a group: the first block of the group is computed in `uint32_t`. -/
def blockNumber (fs : MExt2fs) (cg bno : ℕ) : ℤ := u32 (cg * fs.fpg + fs.firstDblock : ℕ) + bno

/-- The number of an inode of a group. -/
def inodeNumber (fs : MExt2fs) (cg ino : ℕ) : ℤ := u32 (cg * fs.ipg : ℕ) + ino + 1

/-- `ext2_alloccg`: `before` is the counter of the group on entry, `read` the result of the read of the
bitmap, and the group is what it is after the read. -/
def ext2Alloccg (fs : MExt2fs) (contigsumsize cg : ℕ) (bpref : ℤ) (before : ℕ) (read : Bool)
    (gd : Group) (sb : Totals) : Outcome :=
  if before = 0 then .ret 0 gd sb
  else if read = false then .ret 0 gd sb
  else if gd.nbfree = 0 then .ret 0 gd sb
  else
    match searchBlock fs gd.bbmap cg bpref with
    | .bit bno =>
        let map := gd.bbmap.setbit bno
        .ret (blockNumber fs cg bno)
          { gd with
            bbmap := map
            nbfree := gd.nbfree - 1
            cs := ext2Clusteracct fs.fpg contigsumsize map bno (-1) gd.cs }
          { sb with fbcount := u32 (sb.fbcount - 1) }
    | .corrupted => .corrupted
    | .outside => .outside

/-- `ext2_nodealloccg` -/
def ext2Nodealloccg (fs : MExt2fs) (cg : ℕ) (ipref : ℤ) (isDir : Bool) (before : ℕ) (read : Bool)
    (gd : Group) (sb : Totals) : Outcome :=
  if before = 0 then .ret 0 gd sb
  else if read = false then .ret 0 gd sb
  else if gd.nifree = 0 then .ret 0 gd sb
  else
    match searchInode fs gd.ibmap ipref with
    | .bit ipref =>
        .ret (inodeNumber fs cg ipref)
          { gd with
            ibmap := gd.ibmap.setbit ipref
            nifree := gd.nifree - 1
            ndirs := if isDir then (gd.ndirs + 1) % 2 ^ 16 else gd.ndirs }
          { sb with
            ficount := u32 (sb.ficount - 1)
            totalDir := if isDir then u32 (sb.totalDir + 1) else sb.totalDir }
    | .corrupted => .corrupted
    | .outside => .outside

/-- `ext2_nodealloccg`, where the search finds the bit `i`. -/
theorem nodealloccg_bit {fs : MExt2fs} (cg : ℕ) {ipref : ℤ} (isDir : Bool) {before i : ℕ}
    {gd : Group} (sb : Totals) (hbefore : before ≠ 0) (hfree : gd.nifree ≠ 0)
    (hfound : searchInode fs gd.ibmap ipref = .bit i) :
    ext2Nodealloccg fs cg ipref isDir before true gd sb =
      .ret (inodeNumber fs cg i)
        { gd with
          ibmap := gd.ibmap.setbit i
          nifree := gd.nifree - 1
          ndirs := if isDir then (gd.ndirs + 1) % 2 ^ 16 else gd.ndirs }
        { sb with
          ficount := u32 (sb.ficount - 1)
          totalDir := if isDir then u32 (sb.totalDir + 1) else sb.totalDir } := by
  rw [ext2Nodealloccg, if_neg hbefore, if_neg (by decide), if_neg hfree, hfound]

/-- `ext2_nodealloccg`, where the search leaves the bitmap. -/
theorem nodealloccg_outside {fs : MExt2fs} (cg : ℕ) {ipref : ℤ} (isDir : Bool) {before : ℕ}
    {gd : Group} (sb : Totals) (hbefore : before ≠ 0) (hfree : gd.nifree ≠ 0)
    (hfound : searchInode fs gd.ibmap ipref = .outside) :
    ext2Nodealloccg fs cg ipref isDir before true gd sb = .outside := by
  rw [ext2Nodealloccg, if_neg hbefore, if_neg (by decide), if_neg hfree, hfound]

/-! ### The scan for eight -/

/-- Eight places with a property. -/
def Eight (p : ℕ → Bool) (i : ℕ) : Prop := ∀ j < 8, p (i + j) = true

/-- The clear bits from the byte `a` on. -/
def clearFrom (map : Bitmap) (a i : ℕ) : Bool := decide (NBBY * a ≤ i) && map.isclr i

section Scan

variable {map : Bitmap} {a loc rounds runstart runlen k i : ℕ}

theorem clearFrom_byte (ha : a ≤ loc) (hk : k < 8) :
    clearFrom map a (NBBY * loc + k) = !(map loc).getLsbD k := by
  have hle : NBBY * a ≤ NBBY * loc + k := by
    unfold NBBY
    omega
  rw [clearFrom, isclr_byte map loc hk, decide_eq_true hle, Bool.true_and]

/-- The run before a byte goes on into it. -/
theorem eight_found (ha : a ≤ loc) (hb : Behind (clearFrom map a) (NBBY * loc) runlen)
    (h : ∀ k, runlen + k < 8 → (map loc).getLsbD k = false) :
    Eight (clearFrom map a) (NBBY * loc - runlen) := by
  intro j hj
  have hle := hb.le
  by_cases hlt : j < runlen
  · exact hb.all _ (by omega) (by omega)
  · rw [show NBBY * loc - runlen + j = NBBY * loc + (j - runlen) by omega,
      clearFrom_byte ha (by omega), h _ (by omega)]
    rfl

/-- Before a run that is still short there is no place for eight. -/
theorem no_eight_before (hb : Behind (clearFrom map a) (NBBY * loc) runlen)
    (hno : ∀ i, i + 8 ≤ NBBY * loc → ¬Eight (clearFrom map a) i) :
    ∀ i < NBBY * loc - runlen, ¬Eight (clearFrom map a) i := by
  intro i hi h
  by_cases hold : i + 8 ≤ NBBY * loc
  · exact hno i hold h
  · have hrun : NBBY * loc - i ≤ runlen := hb.le_iff.2 ⟨by omega, fun j hj hj' => by
      have := h (j - i) (by omega)
      rwa [show i + (j - i) = j by omega] at this⟩
    omega

/-- A set bit in the byte ends the run before it too early. -/
theorem no_eight (ha : a ≤ loc) (hb : Behind (clearFrom map a) (NBBY * loc) runlen)
    (hno : ∀ i, i + 8 ≤ NBBY * loc → ¬Eight (clearFrom map a) i) (hk : runlen + k < 8)
    (hset : (map loc).getLsbD k = true) :
    ∀ i, i + 8 ≤ NBBY * (loc + 1) → ¬Eight (clearFrom map a) i := by
  intro i hi h
  have hbits : NBBY * (loc + 1) = NBBY * loc + 8 := by simp [NBBY, Nat.mul_add]
  by_cases hold : i + 8 ≤ NBBY * loc
  · exact hno i hold h
  by_cases hin : NBBY * loc + k < i + 8
  · have hclear := h (NBBY * loc + k - i) (by omega)
    rw [show i + (NBBY * loc + k - i) = NBBY * loc + k by omega, clearFrom_byte ha (by omega),
      hset] at hclear
    cases hclear
  · have hrun : NBBY * loc - i ≤ runlen := hb.le_iff.2 ⟨by omega, fun j hj hj' => by
      have := h (j - i) (by omega)
      rwa [show i + (j - i) = j by omega] at this⟩
    omega

/-- The run at the end of a byte that has a set bit. -/
theorem behind_byte (ha : a ≤ loc) (hpos : 0 < ext2Fls (map loc)) :
    Behind (clearFrom map a) (NBBY * (loc + 1)) (NBBY - ext2Fls (map loc)) := by
  obtain ⟨hle, hclear, hset⟩ := ext2Fls_spec (map loc)
  have hbits : NBBY * (loc + 1) = NBBY * loc + 8 := by simp [NBBY, Nat.mul_add]
  have h8 : NBBY = 8 := rfl
  refine ⟨by omega, fun i hi hi' => ?_, fun _ => ?_⟩
  · obtain ⟨k, rfl⟩ : ∃ k, i = NBBY * loc + k := ⟨i - NBBY * loc, by omega⟩
    rw [clearFrom_byte ha (by omega), hclear k (by omega) (by omega)]
    rfl
  · rw [show NBBY * (loc + 1) - (NBBY - ext2Fls (map loc)) - 1 =
        NBBY * loc + (ext2Fls (map loc) - 1) by omega, clearFrom_byte ha (by omega), hset hpos]
    rfl

/-- **The scan finds the first eight clear bits in its bytes, or there are none.** -/
theorem eightLoop_spec (ha : a ≤ loc) (hrun : runlen < 8)
    (hb : Behind (clearFrom map a) (NBBY * loc) runlen)
    (hstart : 0 < runlen → runstart = NBBY * loc - runlen)
    (hno : ∀ i, i + 8 ≤ NBBY * loc → ¬Eight (clearFrom map a) i) :
    (∀ bno, eightLoop map rounds loc runstart runlen = some bno →
        Eight (clearFrom map a) bno ∧ bno + 8 ≤ NBBY * (loc + rounds) ∧
          ∀ i < bno, ¬Eight (clearFrom map a) i) ∧
      (eightLoop map rounds loc runstart runlen = none →
        ∀ i, i + 8 ≤ NBBY * (loc + rounds) → ¬Eight (clearFrom map a) i) := by
  induction rounds generalizing loc runstart runlen with
  | zero => exact ⟨fun bno h => (by cases h), fun _ => hno⟩
  | succ rounds ih =>
    have hbits : NBBY * (loc + 1) = NBBY * loc + 8 := by simp [NBBY, Nat.mul_add]
    have h8 : NBBY = 8 := rfl
    have hend : NBBY * (loc + 1) ≤ NBBY * (loc + 1 + rounds) := Nat.mul_le_mul_left _ (by omega)
    have hle := hb.le
    rw [show loc + (rounds + 1) = loc + 1 + rounds by omega]
    obtain ⟨hfls, -, hset⟩ := ext2Fls_spec (map loc)
    -- a run that goes on to the end of the byte, or for long enough into it
    have hfound (h : ∀ k, runlen + k < 8 → (map loc).getLsbD k = false) :
        Eight (clearFrom map a) (NBBY * loc - runlen) ∧
          NBBY * loc - runlen + 8 ≤ NBBY * (loc + 1 + rounds) ∧
            ∀ i < NBBY * loc - runlen, ¬Eight (clearFrom map a) i :=
      ⟨eight_found ha hb h, by omega, no_eight_before hb hno⟩
    -- a new run, from the highest set bit of the byte on
    have hnew (hpos : 0 < ext2Fls (map loc)) {k : ℕ} (hk : runlen + k < 8)
        (hbit : (map loc).getLsbD k = true) :=
      @ih (loc + 1) (loc * NBBY + ext2Fls (map loc)) (NBBY - ext2Fls (map loc)) (by omega)
        (by omega) (behind_byte ha hpos) (fun _ => by rw [Nat.mul_comm loc NBBY]; omega)
        (no_eight ha hb hno hk hbit)
    rw [eightLoop]
    split
    next hfull =>
      have hbit : ∀ k < 8, (map loc).getLsbD k = true := by rw [hfull]; exact getLsbD_full
      refine @ih (loc + 1) runstart 0 (by omega) (by omega) ⟨by omega, fun i _ _ => by omega, fun _ => ?_⟩
        (fun h => absurd h (lt_irrefl 0)) (no_eight ha hb hno (k := 0) (by omega) (hbit 0 (by omega)))
      rw [show NBBY * (loc + 1) - 0 - 1 = NBBY * loc + 7 by omega, clearFrom_byte ha (by omega),
        hbit 7 (by omega)]
      rfl
    next hfull =>
      split
      next hzero =>
        subst hzero
        by_cases hpos : 0 < ext2Fls (map loc)
        · simp only [show ¬8 ≤ NBBY - ext2Fls (map loc) by omega, if_false]
          exact hnew hpos (by omega) (hset hpos)
        · have hbyte := (ext2Fls_spec (map loc)).2.1
          simp only [show 8 ≤ NBBY - ext2Fls (map loc) by omega, if_true]
          refine ⟨fun bno h => ?_, fun h => by cases h⟩
          cases h
          rw [show loc * NBBY + ext2Fls (map loc) = NBBY * loc - 0 by rw [Nat.mul_comm]; omega]
          exact hfound fun k hk => hbyte k (by omega) (by omega)
      next hrunning =>
        rw [hstart (by omega)]
        split
        next hbyte =>
          simp only [show 8 ≤ runlen + NBBY by omega, if_true]
          refine ⟨fun bno h => ?_, fun h => by cases h⟩
          cases h
          exact hfound fun k _ => by rw [hbyte]; exact BitVec.getLsbD_zero
        next hbyte =>
          obtain ⟨hlt, hlow, hbelow⟩ := ffs_spec (map loc) hbyte
          split
          next hlong =>
            refine ⟨fun bno h => ?_, fun h => by cases h⟩
            cases h
            exact hfound fun k hk => hbelow k (by omega)
          next hshort =>
            have hpos : 0 < ext2Fls (map loc) := by
              by_contra h
              rw [(ext2Fls_spec (map loc)).2.1 _ hlt (by omega)] at hlow
              cases hlow
            simp only [show ¬8 ≤ NBBY - ext2Fls (map loc) by omega, if_false]
            exact hnew hpos (by omega) hlow

/-- There is room for eight clear bits between two places. -/
def HasEight (map : Bitmap) (lo hi : ℕ) : Prop := ∃ i, lo ≤ i ∧ i + 8 ≤ hi ∧ Eight map.isclr i

theorem eight_clearFrom : Eight (clearFrom map a) i ↔ NBBY * a ≤ i ∧ Eight map.isclr i := by
  refine ⟨fun h => ⟨?_, fun j hj => ?_⟩, fun ⟨ha, h⟩ j hj => ?_⟩
  · have := h 0 (by omega)
    simp only [clearFrom, Bool.and_eq_true, decide_eq_true_eq] at this
    exact this.1
  · have := h j hj
    simp only [clearFrom, Bool.and_eq_true] at this
    exact this.2
  · rw [clearFrom, h j hj, decide_eq_true (by omega), Bool.and_self]

/-- One pass of the scan, from the byte `a` on. -/
theorem pass_spec (map : Bitmap) (a rounds : ℕ) :
    (∀ bno, eightLoop map rounds a 0 0 = some bno → NBBY * a ≤ bno ∧ Eight map.isclr bno ∧
        bno + 8 ≤ NBBY * (a + rounds) ∧ ∀ i < bno, NBBY * a ≤ i → ¬Eight map.isclr i) ∧
      (eightLoop map rounds a 0 0 = none → ¬HasEight map (NBBY * a) (NBBY * (a + rounds))) := by
  have hb : Behind (clearFrom map a) (NBBY * a) 0 := by
    refine ⟨Nat.zero_le _, fun i _ _ => by omega, fun hpos => ?_⟩
    rw [clearFrom, decide_eq_false (by omega), Bool.false_and]
  obtain ⟨hsome, hnone⟩ := @eightLoop_spec map a a rounds 0 0 le_rfl (by decide) hb
    (fun h => absurd h (lt_irrefl 0)) (fun i hi h => by
      have := (eight_clearFrom.1 h).1
      omega)
  refine ⟨fun bno h => ?_, fun h => ?_⟩
  · obtain ⟨height, hle, hfirst⟩ := hsome bno h
    obtain ⟨hge, height⟩ := eight_clearFrom.1 height
    exact ⟨hge, height, hle, fun i hi hai h => hfirst i hi (eight_clearFrom.2 ⟨hai, h⟩)⟩
  · rintro ⟨i, hi, hi', height⟩
    exact hnone h i hi' (eight_clearFrom.2 ⟨hi, height⟩)

/-- The two passes look at the bytes from `start` up to `end` and at those before `start`. -/
theorem eightPasses_spec {bytes start : ℕ} (hstart : start ≤ bytes) :
    (∀ bno, eightPasses map bytes start = some bno → Eight map.isclr bno ∧
        (NBBY * start ≤ bno ∧ bno + 8 ≤ NBBY * (bytes - start) ∨ bno + 8 ≤ NBBY * start) ∧
          (start = 0 → ∀ i < bno, ¬Eight map.isclr i)) ∧
      (eightPasses map bytes start = none → ¬HasEight map (NBBY * start) (NBBY * (bytes - start)) ∧
        ¬HasEight map 0 (NBBY * start)) := by
  obtain ⟨hsome, hnone⟩ := pass_spec map start (bytes - start - start)
  obtain ⟨hsome', hnone'⟩ := pass_spec map 0 start
  have hrange : ∀ i, NBBY * start ≤ i → i + 8 ≤ NBBY * (bytes - start) →
      i + 8 ≤ NBBY * (start + (bytes - start - start)) := fun i hi hi' => by
    unfold NBBY at *
    omega
  have hback : ∀ i, i + 8 ≤ NBBY * (start + (bytes - start - start)) → NBBY * start ≤ i →
      i + 8 ≤ NBBY * (bytes - start) := fun i hi hi' => by
    unfold NBBY at *
    omega
  unfold eightPasses
  cases hfirst : eightLoop map (bytes - start - start) start 0 0 with
  | some bno =>
    obtain ⟨hge, height, hle, hleast⟩ := hsome bno hfirst
    refine ⟨fun b h => ?_, fun h => (by cases h)⟩
    cases h
    exact ⟨height, .inl ⟨hge, hback _ hle hge⟩, fun h₀ i hi => hleast i hi (by simp [h₀])⟩
  | none =>
    have hno : ¬HasEight map (NBBY * start) (NBBY * (bytes - start)) := fun ⟨i, hi, hi', h⟩ =>
      hnone hfirst ⟨i, hi, hrange i hi hi', h⟩
    simp only
    split
    next hne =>
      refine ⟨fun b h => ?_, fun h => ⟨hno, ?_⟩⟩
      · obtain ⟨-, height, hle, -⟩ := hsome' b h
        exact ⟨height, .inr (by rwa [Nat.zero_add] at hle), fun h₀ => absurd h₀ hne⟩
      · have := hnone' h
        rwa [Nat.mul_zero, Nat.zero_add] at this
    next hzero =>
      refine ⟨fun b h => (by cases h), fun _ => ⟨hno, fun ⟨i, _, hi, _⟩ => ?_⟩⟩
      rw [not_not.1 hzero] at hi
      omega

/-! ### The search by bytes -/

/-- **The search by bytes misses nothing**: it comes to the first clear bit from its byte on, or to one
before the end of that byte; when it fails, no bit of its bytes is clear. -/
theorem searchBytes_spec (map : Bitmap) (start len : ℕ) :
    (∃ bno, searchBytes map start len = .bit bno ∧ map.isclr bno = true ∧
      (NBBY * start ≤ bno ∧ bno < NBBY * (start + len) ∧
          (∀ j, NBBY * start ≤ j → j < bno → map.isclr j = false) ∨
        bno < NBBY * (start + 1) ∧
          ∀ j, NBBY * start ≤ j → j < NBBY * (start + len) → map.isclr j = false)) ∨
      searchBytes map start len = .corrupted ∧
        ∀ j < NBBY * (start + len), map.isclr j = false := by
  -- the byte of a bit
  have hbyte : ∀ j a b : ℕ, NBBY * a ≤ j → j < NBBY * b → a ≤ j / NBBY ∧ j / NBBY < b :=
    fun j a b h h' => by
      unfold NBBY at *
      omega
  unfold searchBytes
  cases hfirst : memcchr map 0xff start len with
  | some loc =>
    obtain ⟨bno, hbno, hclear, hge, hlt, hall⟩ := memcchr_first hfirst
    exact .inl ⟨bno, by rw [hbno], hclear, .inl ⟨hge, hlt, hall⟩⟩
  | none =>
    have hfull := memcchr_eq_none hfirst
    have hlater : ∀ j, NBBY * start ≤ j → j < NBBY * (start + len) → map.isclr j = false :=
      fun j hj hj' => isclr_full (hfull _ (hbyte _ _ _ hj hj').1 (hbyte _ _ _ hj hj').2)
    cases hagain : memcchr map 0xff 0 (start + 1) with
    | some loc =>
      obtain ⟨bno, hbno, hclear, -, hlt, -⟩ := memcchr_first hagain
      rw [Nat.zero_add] at hlt
      exact .inl ⟨bno, by simp only [hbno], hclear, .inr ⟨hlt, hlater⟩⟩
    | none =>
      have hfull' := memcchr_eq_none hagain
      refine .inr ⟨rfl, fun j hj => ?_⟩
      rcases lt_or_ge j (NBBY * start) with hlow | hhigh
      · have := (hbyte j 0 start (Nat.zero_le _) hlow).2
        exact isclr_full (hfull' _ (Nat.zero_le _) (by omega))
      · exact hlater j hhigh hj

end Scan

end GroupMap

end Ext2fs
