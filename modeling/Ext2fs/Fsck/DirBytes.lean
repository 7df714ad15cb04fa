import Ext2fs.Fsck.Pass2Keeps

/-!
# The bytes that the scan of a directory touches

`dirscan`, `fsck_readdir` and `dircheck` on the bytes of a block, whatever they are.  Every access to the
block, and every record that is handed to the function of the pass, is recorded.  The bytes behind the
block are those that stand in memory there.

* `dirRecAt`, `dircheckReads` — the record at an offset, and what `dircheck` looks at of it;
* `fsckReaddir`, `dirscanBytes` — the scan, with the repairs in place;
* `Examined` — the offsets at which a record is looked for;
* **`dirscan_bytes_iff`** — the scan keeps to the block, and hands over records whose names they hold,
  exactly where no record is looked for in the last four bytes and every name is in its record.
-/

namespace Ext2fs.Fsck

open Bytes

/-- The bytes `off`, ..., `off + len - 1` of a block are read or written. -/
structure BlockSpan where
  off : ℤ
  len : ℕ
  deriving DecidableEq

/-- They are in the block. -/
def BlockSpan.Inside (bsize : ℕ) (a : BlockSpan) : Prop := ∀ i < a.len, 0 ≤ a.off + i ∧ a.off + i < bsize

/-- A record as it is handed to the function of the pass: its place, and `e2d_ino` and `e2d_namlen`. -/
structure Passed where
  off : ℕ
  len : ℕ
  ino : ℕ
  namlen : ℕ
  deriving DecidableEq

/-- The copy fits into a block, the record lies in its block, and if it is in use its name lies in it. -/
structure Passed.Ok (bsize : ℕ) (q : Passed) : Prop where
  copied : q.len ≤ bsize
  inside : q.off + q.len ≤ bsize
  name : q.ino ≠ 0 → 8 + q.namlen ≤ q.len

/-- `enum fixstate` -/
inductive FixState where
  | dontknow | nofix | fix | ignore
  deriving DecidableEq

/-- The variables of the scan: the buffer of the block, the copy of the record, `id_loc`, `id_filesize`,
`id_fix`, the state of the pass, and what was touched and handed over. -/
structure ByteScan (σ : Type) where
  buf : Mem
  dbuf : Mem
  loc : ℕ
  filesize : ℤ
  fix : FixState
  st : σ
  accesses : List BlockSpan
  passed : List Passed

/-- The block is accessed. -/
def ByteScan.touch {σ : Type} (s : ByteScan σ) (as : List BlockSpan) : ByteScan σ :=
  { s with accesses := s.accesses ++ as }

/-- What the function of a pass makes of the copy of a record: `ALTERED`, `STOP`, the copy and its state. -/
structure ByteReply (σ : Type) where
  altered : Bool
  stop : Bool
  dbuf : Mem
  st : σ

/-- The record at an offset. -/
def dirRecAt (m : Mem) (o : ℕ) : DirRec where
  e2d_ino := e2dIno m o
  e2d_reclen := e2dReclen m o
  e2d_type := e2dType m o
  e2d_name := e2dName m o
  behind := slice m (o + 8 + e2dNamlen m o) (e2dReclen m o - 8 - e2dNamlen m o)

section

variable (E : DirEnv)

/-- `dircheck` of the bytes at `loc`. -/
def dircheckAt (m : Mem) (loc : ℕ) (filesize : ℤ) : Bool := dircheck E loc filesize (dirRecAt m loc)

/-- What `dircheck` looks at: the length and the inode number, the type where it is not in use on this
volume, the length of the name, and at most the bytes of the name. -/
def dircheckReads (m : Mem) (loc : ℕ) (filesize : ℤ) : List BlockSpan :=
  let dp := dirRecAt m loc
  let spaceleft := E.v.bsize - loc % E.v.bsize
  ⟨loc + 4, 2⟩ :: ⟨loc, 4⟩ ::
    if E.v.maxino < dp.e2d_ino ∨ dp.e2d_reclen = 0 ∨ spaceleft < dp.e2d_reclen ∨ dp.e2d_reclen % 4 ≠ 0 then []
    else if dp.e2d_ino = 0 then []
    else (if E.ftype then [] else [⟨loc + 7, 1⟩]) ++
      if E.ftype = false ∧ dp.e2d_type ≠ 0 then []
      else ⟨loc + 6, 1⟩ ::
        if dp.e2d_reclen < dirRecLen dp.namlen ∨ filesize < dirRecLen dp.namlen ∨
          EXT2FS_MAXNAMLEN < dp.namlen then []
        else [⟨loc + 8, dp.namlen⟩]

/-- `dofix`: whether to fix, and `id_fix` afterwards; `answer` is `preen`, or the reply. -/
def dofix (answer : Bool) : FixState → Bool × FixState
  | .dontknow => if answer then (true, .fix) else (false, .nofix)
  | .fix => (true, .fix)
  | .nofix => (false, .nofix)
  | .ignore => (false, .ignore)

/-- A corrupted block becomes one unused record. -/
def clearRecord (m : Mem) (p bsize : ℕ) : Mem :=
  put 1 (put 1 (put 1 (put 4 (put 2 m (p + 4) bsize) p 0) (p + 6) 0) (p + 7) 0) (p + 8) 0

variable {σ : Type} (answer : Bool) (f : Mem → σ → ByteReply σ)

/-- `fsck_readdir` at the start of a block whose first record `dircheck` refuses. -/
def readdirCorrupted (s : ByteScan σ) : Option ℕ × ByteScan σ :=
  if s.fix = .ignore then (none, s)
  else
    (some s.loc,
      { s.touch [⟨s.loc, 9⟩] with
        buf := clearRecord s.buf s.loc E.v.bsize
        loc := s.loc + E.v.bsize
        filesize := s.filesize - E.v.bsize
        fix := (dofix answer s.fix).2 })

/-- `fsck_readdir` from `dpok` on. -/
def readdirOk (s : ByteScan σ) : Option ℕ × ByteScan σ :=
  if s.filesize ≤ 0 ∨ E.v.bsize ≤ s.loc then (none, s)
  else
    let dploc := s.loc
    let reclen := e2dReclen s.buf dploc
    let s := { s.touch [⟨dploc + 4, 2⟩] with loc := dploc + reclen, filesize := s.filesize - reclen }
    if s.loc % E.v.bsize = 0 then (some dploc, s)
    else if s.loc < E.v.bsize ∧ 0 < s.filesize then
      let bad := !dircheckAt E s.buf s.loc s.filesize
      let s := s.touch (dircheckReads E s.buf s.loc s.filesize)
      if bad then
        let size := E.v.bsize - s.loc % E.v.bsize
        let s : ByteScan σ := { s with loc := s.loc + size, filesize := s.filesize - size }
        if s.fix = .ignore then (none, s)
        else
          (some dploc,
            { s.touch [⟨dploc + 4, 2⟩] with
              buf := put 2 s.buf (dploc + 4) (reclen + size)
              fix := (dofix answer s.fix).2 })
      else (some dploc, s)
    else (some dploc, s)

/-- `fsck_readdir`: the offset of the next record, if there is one. -/
def fsckReaddir (s : ByteScan σ) : Option ℕ × ByteScan σ :=
  if s.loc % E.v.bsize = 0 ∧ 0 < s.filesize ∧ s.loc < E.v.bsize then
    let ok := dircheckAt E s.buf s.loc s.filesize
    let s := s.touch (dircheckReads E s.buf s.loc s.filesize)
    if ok then readdirOk E answer s else readdirCorrupted E answer s
  else readdirOk E answer s

/-- The body of the loop of `dirscan` for the record at `dp`: the state afterwards, and `STOP`. -/
def dirscanBody (s : ByteScan σ) (dp : ℕ) : ByteScan σ × Bool :=
  let dsize := e2dReclen s.buf dp
  let s : ByteScan σ := { s.touch [⟨dp + 4, 2⟩, ⟨dp, dsize⟩] with
    dbuf := paste s.dbuf 0 s.buf dp dsize
    passed := s.passed ++ [⟨dp, dsize, e2dIno s.buf dp, e2dNamlen s.buf dp⟩] }
  let n := f s.dbuf s.st
  let s := { s with dbuf := n.dbuf, st := n.st }
  let s := if n.altered then
      { s.touch [⟨(s.loc : ℤ) - dsize, dsize⟩] with buf := paste s.buf (s.loc - dsize) s.dbuf 0 dsize }
    else s
  (s, n.stop)

/-- The loop of `dirscan`, and `STOP`; nothing when the rounds do not suffice. -/
def dirscanBytesLoop : ℕ → ByteScan σ → Option (ByteScan σ × Bool)
  | 0, _ => none
  | fuel + 1, s =>
      match fsckReaddir E answer s with
      | (none, s) => some (s, false)
      | (some dp, s) =>
          match dirscanBody f s dp with
          | (s, true) => some (s, true)
          | (s, false) => dirscanBytesLoop fuel s

/-- `id_filesize` at the start of a block: rounded up while no entry has been seen. -/
def startFilesize (entryno : ℕ) (filesize : ℤ) : ℤ :=
  if entryno = 0 ∧ filesize % E.v.bsize ≠ 0 then (filesize + (E.v.bsize - 1)).tdiv E.v.bsize * E.v.bsize
  else filesize

/-- `dirscan` of a block in range. -/
def dirscanBytes (m dbuf : Mem) (entryno : ℕ) (filesize : ℤ) (policy : FixState) (st : σ) :
    Option (ByteScan σ × Bool) :=
  dirscanBytesLoop E answer f (E.v.bsize + 1)
    ⟨m, dbuf, 0, startFilesize E entryno filesize, policy, st, [], []⟩

end

/-! ### Where the scan goes -/

section

variable (E : DirEnv) (m : Mem) (filesize : ℤ)

/-- Behind a record that is let pass, the next one is looked for if there is space and size left. -/
def NextExamined (p q : ℕ) : Prop :=
  dircheckAt E m p (filesize - p) = true ∧ q = p + e2dReclen m p ∧ q < E.v.bsize ∧ 0 < filesize - q

/-- The offsets at which a record is looked for, when `filesize` is left at the start of the block. -/
def Examined (p : ℕ) : Prop := 0 < filesize ∧ Relation.ReflTransGen (NextExamined E m filesize) 0 p

/-- The length with which a record is handed over: when the one behind it is refused, it takes the rest
of the block. -/
def handedLen (p : ℕ) : ℕ :=
  let q := p + e2dReclen m p
  if q < E.v.bsize ∧ 0 < filesize - q ∧ dircheckAt E m q (filesize - q) = false then E.v.bsize - p
  else e2dReclen m p

/-- The record that is looked for next is not in the last four bytes. -/
def NextSafe (p : ℕ) : Prop := ∀ q, NextExamined E m filesize p q → q + 8 ≤ E.v.bsize

/-- The name of a record that is handed over in use lies in it. -/
def NameSafe (p : ℕ) : Prop :=
  dircheckAt E m p (filesize - p) = true → e2dIno m p ≠ 0 → 8 + e2dNamlen m p ≤ handedLen E m filesize p

end

/-- The scan has kept to the block, and what it has handed over is in order. -/
structure ByteScan.Safe {σ : Type} (E : DirEnv) (s : ByteScan σ) : Prop where
  accesses : ∀ a ∈ s.accesses, a.Inside E.v.bsize
  passed : ∀ q ∈ s.passed, q.Ok E.v.bsize

/-- The scan of a block comes back and is safe, under every function of a pass, every policy and every
answer. -/
def DirscanSafe (E : DirEnv) (m : Mem) (entryno : ℕ) (filesize : ℤ) : Prop :=
  ∀ (σ : Type) (f : Mem → σ → ByteReply σ) (st : σ) (dbuf : Mem) (policy : FixState) (answer : Bool),
    ∃ r, dirscanBytes E answer f m dbuf entryno filesize policy st = some r ∧ r.1.Safe E

/-- The head of the loop at an offset: the bytes from there on are the old ones, and the record there has
been let pass, but for the first one. -/
structure Head {σ : Type} (E : DirEnv) (m : Mem) (filesize : ℤ) (p : ℕ) (s : ByteScan σ) : Prop where
  loc : s.loc = p
  left : s.filesize = filesize - p
  buf : ∀ i, p ≤ i → s.buf i = m i
  aligned : 4 ∣ p
  le : p ≤ E.v.bsize
  ok : 0 < p → p < E.v.bsize → 0 < filesize - p → dircheckAt E m p (filesize - p) = true

section

variable {E : DirEnv} {m m' : Mem} {filesize : ℤ} {p q : ℕ} {σ : Type} {s s' : ByteScan σ} {answer : Bool}
  {f : Mem → σ → ByteReply σ}

theorem Layout.bsize_dvd (v : Layout) : 4 ∣ v.bsize := by
  rcases v.toVolume.cases.1 with ⟨h, -⟩ | ⟨h, -⟩ | ⟨h, -⟩ <;> rw [h] <;> decide

theorem BlockSpan.inside_iff {n : ℕ} {o len : ℕ} : (⟨(o : ℤ), len⟩ : BlockSpan).Inside n ↔ len = 0 ∨ o + len ≤ n := by
  unfold BlockSpan.Inside
  simp only
  constructor
  · intro h
    by_cases hlen : len = 0
    · exact .inl hlen
    · have hlast := h (len - 1) (by omega)
      omega
  · intro h i hi
    omega

/-- Bytes that agree from an offset on have the same record there. -/
theorem dirRecAt_congr (h : ∀ i, p ≤ i → m' i = m i) : dirRecAt m' p = dirRecAt m p := by
  have hle : ∀ k o, p ≤ o → le k m' o = le k m o := fun k o ho => le_congr fun i _ => h _ (by omega)
  have hlen : e2dNamlen m' p = e2dNamlen m p := hle 1 _ (by omega)
  have hreclen : e2dReclen m' p = e2dReclen m p := hle 2 _ (by omega)
  have hrange : ∀ o n, p ≤ o → slice m' o n = slice m o n := fun o n ho =>
    List.map_congr_left fun i _ => h _ (by omega)
  have hname : e2dName m' p = e2dName m p := by
    show slice m' (p + 8) (e2dNamlen m' p) = slice m (p + 8) (e2dNamlen m p)
    rw [hlen]
    exact hrange _ _ (by omega)
  unfold dirRecAt
  rw [hlen, hreclen, hname, hrange _ _ (by omega)]
  show (⟨le 4 m' p, _, le 1 m' (p + 7), _, _⟩ : DirRec) = ⟨le 4 m p, _, le 1 m (p + 7), _, _⟩
  rw [hle 4 _ (le_refl _), hle 1 _ (by omega)]

theorem dircheckAt_congr (h : ∀ i, p ≤ i → m' i = m i) (fs : ℤ) :
    dircheckAt E m' p fs = dircheckAt E m p fs := by
  unfold dircheckAt
  rw [dirRecAt_congr h]

theorem dircheckReads_congr (h : ∀ i, p ≤ i → m' i = m i) (fs : ℤ) :
    dircheckReads E m' p fs = dircheckReads E m p fs := by
  unfold dircheckReads
  rw [dirRecAt_congr h]

/-- A record that is let pass has a length, and ends in the block. -/
theorem dircheckAt_len {fs : ℤ} (h : dircheckAt E m p fs = true) (hp : p < E.v.bsize) :
    0 < e2dReclen m p ∧ p + e2dReclen m p ≤ E.v.bsize ∧ 4 ∣ e2dReclen m p := by
  have hmod : p % E.v.bsize = p := Nat.mod_eq_of_lt hp
  unfold dircheckAt dircheck at h
  simp only [hmod] at h
  split at h
  · cases h
  · next hok =>
    have hreclen : (dirRecAt m p).e2d_reclen = e2dReclen m p := rfl
    rw [hreclen] at hok
    omega

/-- **`dircheck` looks at bytes of the block** unless the record is looked for in its last four bytes. -/
theorem dircheckReads_inside {fs : ℤ} (hp : p < E.v.bsize) (h4 : 4 ∣ p) :
    (∀ a ∈ dircheckReads E m p fs, a.Inside E.v.bsize) ↔ p + 8 ≤ E.v.bsize := by
  have hdvd := E.v.bsize_dvd
  have hmod : p % E.v.bsize = p := Nat.mod_eq_of_lt hp
  have hcast : ∀ n : ℕ, (p : ℤ) + (n : ℤ) = ((p + n : ℕ) : ℤ) := fun n => by push_cast; rfl
  have h4' := hcast 4
  have h6' := hcast 6
  have h7' := hcast 7
  have h8' := hcast 8
  simp only [Nat.cast_ofNat] at h4' h6' h7' h8'
  unfold dircheckReads
  simp only [hmod, h4', h6', h7', h8', List.forall_mem_cons, BlockSpan.inside_iff]
  constructor
  · intro h
    omega
  · intro h
    refine ⟨by omega, by omega, ?_⟩
    split
    · exact fun a ha => absurd ha List.not_mem_nil
    · next hok =>
      split
      · exact fun a ha => absurd ha List.not_mem_nil
      · rw [List.forall_mem_append]
        refine ⟨?_, ?_⟩
        · split
          · exact fun a ha => absurd ha List.not_mem_nil
          · rw [List.forall_mem_singleton, BlockSpan.inside_iff]
            omega
        · split
          · exact fun a ha => absurd ha List.not_mem_nil
          · simp only [List.forall_mem_cons, BlockSpan.inside_iff]
            refine ⟨by omega, ?_⟩
            split
            · exact fun a ha => absurd ha List.not_mem_nil
            · next hname =>
              rw [List.forall_mem_singleton, BlockSpan.inside_iff]
              have hroom := dirRecLen_ge (dirRecAt m p).namlen
              omega

/-! ### A round -/

@[simp] theorem touch_buf (s : ByteScan σ) (as : List BlockSpan) : (s.touch as).buf = s.buf := rfl

@[simp] theorem touch_loc (s : ByteScan σ) (as : List BlockSpan) : (s.touch as).loc = s.loc := rfl

@[simp] theorem touch_filesize (s : ByteScan σ) (as : List BlockSpan) : (s.touch as).filesize = s.filesize := rfl

@[simp] theorem touch_fix (s : ByteScan σ) (as : List BlockSpan) : (s.touch as).fix = s.fix := rfl

@[simp] theorem touch_passed (s : ByteScan σ) (as : List BlockSpan) : (s.touch as).passed = s.passed := rfl

@[simp] theorem touch_inside (s : ByteScan σ) (as : List BlockSpan) :
    (∀ a ∈ (s.touch as).accesses, a.Inside E.v.bsize) ↔
      (∀ a ∈ s.accesses, a.Inside E.v.bsize) ∧ ∀ a ∈ as, a.Inside E.v.bsize :=
  List.forall_mem_append

/-- `fsck_readdir` has found the record at `p` and is behind it. -/
structure Handed (E : DirEnv) (m : Mem) (filesize : ℤ) (p : ℕ) (s s' : ByteScan σ) : Prop where
  loc : s'.loc = p + e2dReclen s'.buf p
  lt : p < s'.loc
  le : s'.loc ≤ E.v.bsize
  left : s'.filesize = filesize - s'.loc
  buf : ∀ i, s'.loc ≤ i → s'.buf i = m i
  aligned : 4 ∣ s'.loc
  next : s'.loc < E.v.bsize → 0 < filesize - s'.loc → NextExamined E m filesize p s'.loc
  ok : s'.loc < E.v.bsize → 0 < filesize - s'.loc →
    dircheckAt E m s'.loc (filesize - s'.loc) = true
  step : ∀ q, NextExamined E m filesize p q → dircheckAt E m q (filesize - q) = true → s'.loc = q
  passed : s'.passed = s.passed
  accesses : (∀ a ∈ s'.accesses, a.Inside E.v.bsize) ↔
    (∀ a ∈ s.accesses, a.Inside E.v.bsize) ∧ NextSafe E m filesize p
  name : (e2dIno s'.buf p ≠ 0 → 8 + e2dNamlen s'.buf p ≤ e2dReclen s'.buf p) ↔ NameSafe E m filesize p

/-- What `fsck_readdir` does in a round: under `IGNORE` it may end the scan of the block. -/
def Readdir (E : DirEnv) (m : Mem) (filesize : ℤ) (p : ℕ) (s : ByteScan σ) (x : Option ℕ × ByteScan σ) : Prop :=
  (x.1 = some p ∧ Handed E m filesize p s x.2) ∨
    (x.1 = none ∧ s.fix = .ignore ∧ x.2.passed = s.passed ∧ ((∀ a ∈ x.2.accesses, a.Inside E.v.bsize) ↔
      (∀ a ∈ s.accesses, a.Inside E.v.bsize) ∧ NextSafe E m filesize p))

theorem next_unique (hok : dircheckAt E m p (filesize - p) = true) :
    NextExamined E m filesize p q ↔
      q = p + e2dReclen m p ∧ p + e2dReclen m p < E.v.bsize ∧ 0 < filesize - (p + e2dReclen m p : ℕ) := by
  constructor
  · rintro ⟨-, rfl, hlt, hleft⟩
    exact ⟨rfl, hlt, hleft⟩
  · rintro ⟨rfl, hlt, hleft⟩
    exact ⟨hok, rfl, hlt, hleft⟩

/-- The fields of the record at the head of the loop are the old ones. -/
theorem Head.fields (h : Head E m filesize p s) : e2dReclen s.buf p = e2dReclen m p ∧
    e2dIno s.buf p = e2dIno m p ∧ e2dNamlen s.buf p = e2dNamlen m p := by
  have hrec := dirRecAt_congr h.buf
  have hnamlen := congrArg DirRec.namlen hrec
  refine ⟨congrArg DirRec.e2d_reclen hrec, congrArg DirRec.e2d_ino hrec, ?_⟩
  simpa [DirRec.namlen, dirRecAt, e2dName_length] using hnamlen

/-- A record is handed over as it stands unless the one behind it is refused. -/
theorem Handed.plain (h : Head E m filesize p s) (hlt : p < E.v.bsize)
    (hok : dircheckAt E m p (filesize - p) = true) (hbuf : s'.buf = s.buf) (hloc : s'.loc = p + e2dReclen m p)
    (hleft : s'.filesize = filesize - (p + e2dReclen m p : ℕ)) (hpassed : s'.passed = s.passed)
    (hacc : (∀ a ∈ s'.accesses, a.Inside E.v.bsize) ↔
      (∀ a ∈ s.accesses, a.Inside E.v.bsize) ∧ NextSafe E m filesize p)
    (hgood : p + e2dReclen m p < E.v.bsize → 0 < filesize - (p + e2dReclen m p : ℕ) →
      dircheckAt E m (p + e2dReclen m p) (filesize - (p + e2dReclen m p : ℕ)) = true) :
    Handed E m filesize p s s' := by
  obtain ⟨hpos, hend, hdvd⟩ := dircheckAt_len hok hlt
  obtain ⟨hreclen, hino, hnamlen⟩ := h.fields
  have hlen : handedLen E m filesize p = e2dReclen m p :=
    if_neg fun ⟨h1, h2, h3⟩ => Bool.false_ne_true (h3.symm.trans (hgood h1 h2))
  refine ⟨by rw [hloc, hbuf, hreclen], by omega, by omega, by rw [hleft, hloc], fun i hi => ?_,
    hloc ▸ Nat.dvd_add h.aligned hdvd, ?_, ?_, fun q hq _ => hloc.trans ((next_unique hok).1 hq).1.symm,
    hpassed, hacc, ?_⟩
  · rw [hbuf]
    exact h.buf i (by omega)
  · rw [hloc]
    exact fun h1 h2 => (next_unique hok).2 ⟨rfl, h1, h2⟩
  · rw [hloc]
    exact hgood
  · rw [hbuf, hreclen, hino, hnamlen]
    unfold NameSafe
    rw [hlen]
    exact ⟨fun hn _ => hn, fun hn => hn hok⟩

/-- A record takes the rest of the block when the one behind it is refused. -/
theorem Handed.enlarged (h : Head E m filesize p s) (h8 : p + 8 ≤ E.v.bsize)
    (hok : dircheckAt E m p (filesize - p) = true) (hbuf : s'.buf = put 2 s.buf (p + 4) (E.v.bsize - p))
    (hloc : s'.loc = E.v.bsize) (hleft : s'.filesize = filesize - E.v.bsize) (hpassed : s'.passed = s.passed)
    (hacc : (∀ a ∈ s'.accesses, a.Inside E.v.bsize) ↔
      (∀ a ∈ s.accesses, a.Inside E.v.bsize) ∧ NextSafe E m filesize p)
    (hbad : p + e2dReclen m p < E.v.bsize ∧ 0 < filesize - (p + e2dReclen m p : ℕ) ∧
      dircheckAt E m (p + e2dReclen m p) (filesize - (p + e2dReclen m p : ℕ)) = false) :
    Handed E m filesize p s s' := by
  obtain ⟨-, hino, hnamlen⟩ := h.fields
  have hsmall : E.v.bsize - p < 256 ^ 2 := by
    rcases E.v.toVolume.cases.1 with ⟨hb, -⟩ | ⟨hb, -⟩ | ⟨hb, -⟩ <;> rw [hb] <;> omega
  have hreclen : e2dReclen s'.buf p = E.v.bsize - p := by
    rw [hbuf]
    exact le_put_of_lt hsmall
  have hino' : e2dIno s'.buf p = e2dIno m p := by
    rw [hbuf, ← hino]
    exact le_put_below (by omega)
  have hnamlen' : e2dNamlen s'.buf p = e2dNamlen m p := by
    rw [hbuf, ← hnamlen]
    exact le_put_above (by omega)
  have hlen : handedLen E m filesize p = E.v.bsize - p := if_pos hbad
  refine ⟨by omega, by omega, hloc.le, by rw [hleft, hloc], fun i hi => ?_, hloc ▸ E.v.bsize_dvd,
    fun hc => absurd hc (by omega), fun hc => absurd hc (by omega), fun q hq hgood => ?_, hpassed, hacc, ?_⟩
  · rw [hbuf, put_of_ge (by omega)]
    exact h.buf i (by omega)
  · rw [((next_unique hok).1 hq).1] at hgood
    exact absurd (hbad.2.2.symm.trans hgood) Bool.false_ne_true
  · rw [hreclen, hino', hnamlen']
    unfold NameSafe
    rw [hlen]
    exact ⟨fun hn _ => hn, fun hn => hn hok⟩

theorem not_next (hbad : dircheckAt E m p (filesize - p) = false) : ¬NextExamined E m filesize p q :=
  fun hq => Bool.false_ne_true (hbad.symm.trans hq.1)

/-- A first record that is refused becomes an unused one of the size of the block. -/
theorem Handed.cleared (h : Head E m filesize 0 s) (hbad : dircheckAt E m 0 (filesize - (0 : ℕ)) = false)
    (hbuf : s'.buf = clearRecord s.buf 0 E.v.bsize) (hloc : s'.loc = E.v.bsize)
    (hleft : s'.filesize = filesize - E.v.bsize) (hpassed : s'.passed = s.passed)
    (hacc : (∀ a ∈ s'.accesses, a.Inside E.v.bsize) ↔ ∀ a ∈ s.accesses, a.Inside E.v.bsize) :
    Handed E m filesize 0 s s' := by
  have hge := E.v.bsize_ge
  have hsmall : E.v.bsize < 256 ^ 2 := by
    rcases E.v.toVolume.cases.1 with ⟨hb, -⟩ | ⟨hb, -⟩ | ⟨hb, -⟩ <;> rw [hb] <;> decide
  have hreclen : e2dReclen s'.buf 0 = E.v.bsize := by
    rw [hbuf]
    unfold e2dReclen clearRecord
    rw [le_put_below (by omega), le_put_below (by omega), le_put_below (by omega), le_put_above (by omega),
      le_put_of_lt hsmall]
  have hino : e2dIno s'.buf 0 = 0 := by
    rw [hbuf]
    unfold e2dIno clearRecord
    rw [le_put_below (by omega), le_put_below (by omega), le_put_below (by omega), le_put_of_lt (by decide)]
  have hnext : NextSafe E m filesize 0 := fun q hq => absurd hq (not_next hbad)
  refine ⟨by omega, by omega, hloc.le, by rw [hleft, hloc], fun i hi => ?_, hloc ▸ E.v.bsize_dvd,
    fun hc => absurd hc (by omega), fun hc => absurd hc (by omega), fun q hq => absurd hq (not_next hbad), hpassed,
    by rw [hacc, and_iff_left hnext], ?_⟩
  · rw [hbuf]
    unfold clearRecord
    rw [put_of_ge (by omega), put_of_ge (by omega), put_of_ge (by omega), put_of_ge (by omega),
      put_of_ge (by omega)]
    exact h.buf i (Nat.zero_le i)
  · exact iff_of_true (fun hne => absurd hino hne) fun hok => absurd (hbad.symm.trans hok) Bool.false_ne_true

/-- From `dpok` on. -/
theorem readdirOk_spec (h : Head E m filesize p s) (hlt : p < E.v.bsize) (hrem : 0 < filesize - p)
    (h8 : p + 8 ≤ E.v.bsize) (hok : dircheckAt E m p (filesize - p) = true) :
    Readdir E m filesize p s (readdirOk E answer s) := by
  obtain ⟨hpos, hend, hdvd⟩ := dircheckAt_len hok hlt
  obtain ⟨hreclen, hino, hnamlen⟩ := h.fields
  have hhere : ∀ a ∈ [(⟨(p : ℤ) + 4, 2⟩ : BlockSpan)], a.Inside E.v.bsize := by
    intro a ha
    obtain rfl := List.mem_singleton.1 ha
    have h4 : (p : ℤ) + 4 = ((p + 4 : ℕ) : ℤ) := by push_cast; rfl
    rw [h4, BlockSpan.inside_iff]
    omega
  have hleft : s.filesize - e2dReclen m p = filesize - (p + e2dReclen m p : ℕ) := by
    rw [h.left]
    push_cast
    ring
  have hbuf : ∀ i, p + e2dReclen m p ≤ i → s.buf i = m i := fun i hi => h.buf i (by omega)
  have hchk := dircheckAt_congr (E := E) hbuf (filesize - (p + e2dReclen m p : ℕ))
  have hreads := dircheckReads_congr (E := E) hbuf (filesize - (p + e2dReclen m p : ℕ))
  have h4 : 4 ∣ p + e2dReclen m p := Nat.dvd_add h.aligned hdvd
  have hnext := @next_unique E m filesize p
  unfold readdirOk
  rw [h.loc, h.left, if_neg (by omega)]
  simp only [touch_buf, touch_fix, hreclen, ← h.left, hleft, hchk, hreads]
  by_cases hfull : p + e2dReclen m p = E.v.bsize
  · rw [if_pos (by rw [hfull, Nat.mod_self])]
    refine .inl ⟨rfl, .plain h hlt hok rfl rfl rfl rfl ?_ fun hq _ => by omega⟩
    simp only [touch_inside]
    refine and_congr_right fun _ => iff_of_true hhere fun q hq => ?_
    have := ((hnext hok).1 hq).2.1
    omega
  · have hq : p + e2dReclen m p < E.v.bsize := by omega
    have hmod : (p + e2dReclen m p) % E.v.bsize = p + e2dReclen m p := Nat.mod_eq_of_lt hq
    rw [hmod, if_neg (by omega)]
    by_cases hrest : 0 < filesize - (p + e2dReclen m p : ℕ)
    · rw [if_pos ⟨hq, hrest⟩]
      have hinside := @dircheckReads_inside E m (p + e2dReclen m p) (filesize - (p + e2dReclen m p : ℕ)) hq h4
      have hsafe : NextSafe E m filesize p ↔ p + e2dReclen m p + 8 ≤ E.v.bsize :=
        ⟨fun hn => hn _ ((hnext hok).2 ⟨rfl, hq, hrest⟩), fun hn q hq' => by rw [((hnext hok).1 hq').1]; exact hn⟩
      cases hgood : dircheckAt E m (p + e2dReclen m p) (filesize - (p + e2dReclen m p : ℕ)) with
      | true =>
        rw [if_neg (by decide)]
        refine .inl ⟨rfl, .plain h hlt hok rfl rfl rfl rfl ?_ fun _ _ => hgood⟩
        simp only [touch_inside, hsafe, hinside, and_iff_left hhere]
      | false =>
        rw [if_pos (by decide)]
        simp only [touch_loc, hmod]
        by_cases hign : s.fix = .ignore
        · rw [if_pos hign]
          refine .inr ⟨rfl, hign, rfl, ?_⟩
          simp only [touch_inside, hsafe, hinside, and_iff_left hhere]
        · rw [if_neg hign]
          have hsize : e2dReclen m p + (E.v.bsize - (p + e2dReclen m p)) = E.v.bsize - p := by omega
          refine .inl ⟨rfl, .enlarged h h8 hok ?_ ?_ ?_ rfl ?_ ⟨hq, hrest, hgood⟩⟩
          · exact congrArg (put 2 s.buf (p + 4)) hsize
          · show p + e2dReclen m p + (E.v.bsize - (p + e2dReclen m p)) = E.v.bsize
            omega
          · show filesize - (p + e2dReclen m p : ℕ) - (E.v.bsize - (p + e2dReclen m p) : ℕ) = _
            omega
          · simp only [touch_inside, hsafe, hinside, and_iff_left hhere]
    · rw [if_neg fun hc => hrest hc.2]
      refine .inl ⟨rfl, .plain h hlt hok rfl rfl rfl rfl ?_ fun _ hc => absurd hc hrest⟩
      simp only [touch_inside]
      refine and_congr_right fun _ => iff_of_true hhere fun q hq => ?_
      have := ((hnext hok).1 hq).2.2
      exact absurd this hrest

/-- **A round of `fsck_readdir`.** -/
theorem fsckReaddir_spec (h : Head E m filesize p s) (hlt : p < E.v.bsize) (hrem : 0 < filesize - p)
    (h8 : p + 8 ≤ E.v.bsize) : Readdir E m filesize p s (fsckReaddir E answer s) := by
  have hmod : p % E.v.bsize = p := Nat.mod_eq_of_lt hlt
  have hsame := dircheckAt_congr (E := E) h.buf (filesize - p)
  unfold fsckReaddir
  rw [h.loc, h.left, hmod]
  by_cases hzero : p = 0
  · rw [if_pos ⟨hzero, hrem, hlt⟩]
    simp only [hsame, dircheckReads_congr h.buf]
    have hin : ∀ a ∈ dircheckReads E m p (filesize - p), a.Inside E.v.bsize :=
      (dircheckReads_inside hlt h.aligned).2 h8
    have h' : Head E m filesize p (s.touch (dircheckReads E m p (filesize - p))) :=
      ⟨h.loc, h.left, h.buf, h.aligned, h.le, h.ok⟩
    cases hok : dircheckAt E m p (filesize - p) with
    | true =>
      rw [if_pos rfl]
      have hspec : Readdir E m filesize p _ (readdirOk E answer _) := readdirOk_spec h' hlt hrem h8 hok
      refine hspec.imp (And.imp_right fun hh => ?_) (And.imp_right (And.imp_right (And.imp_right fun hh => ?_)))
      · refine ⟨hh.loc, hh.lt, hh.le, hh.left, hh.buf, hh.aligned, hh.next, hh.ok, hh.step, hh.passed, ?_, hh.name⟩
        rw [hh.accesses, touch_inside, and_iff_left hin]
      · rw [hh, touch_inside, and_iff_left hin]
    | false =>
      rw [if_neg Bool.false_ne_true]
      subst hzero
      have hnext : NextSafe E m filesize 0 := fun q hq => absurd hq (not_next hok)
      unfold readdirCorrupted
      by_cases hign : s.fix = .ignore
      · rw [touch_fix, if_pos hign]
        refine .inr ⟨rfl, hign, rfl, ?_⟩
        simp only [touch_inside, and_iff_left hin, and_iff_left hnext]
      · rw [touch_fix, if_neg hign]
        have hrange : ∀ a ∈ [(⟨(s.loc : ℤ), 9⟩ : BlockSpan)], a.Inside E.v.bsize := by
          intro a ha
          obtain rfl := List.mem_singleton.1 ha
          have hge := E.v.bsize_ge
          rw [h.loc, BlockSpan.inside_iff]
          omega
        refine .inl ⟨congrArg some h.loc, .cleared h hok ?_ ?_ ?_ rfl ?_⟩
        · show clearRecord s.buf s.loc E.v.bsize = _
          rw [h.loc]
        · show s.loc + E.v.bsize = _
          rw [h.loc, Nat.zero_add]
        · show s.filesize - E.v.bsize = _
          rw [h.left, Nat.cast_zero, sub_zero]
        · simp only [touch_inside, touch_loc, and_iff_left hin, and_iff_left hrange]
  · rw [if_neg fun hc => hzero hc.1]
    exact readdirOk_spec h hlt hrem h8 (h.ok (Nat.pos_of_ne_zero hzero) hlt hrem)

/-- **A round of `dirscan`** for a record that is handed over. -/
theorem dirscanBody_spec (hh : Handed E m filesize p s s') (h8 : p + 8 ≤ E.v.bsize) :
    Head E m filesize s'.loc (dirscanBody f s' p).1 ∧
      ((dirscanBody f s' p).1.Safe E ↔ s.Safe E ∧ NextSafe E m filesize p ∧ NameSafe E m filesize p) := by
  have hloc := hh.loc
  have hle := hh.le
  have hreads : ∀ a ∈ [(⟨(p : ℤ) + 4, 2⟩ : BlockSpan), ⟨p, e2dReclen s'.buf p⟩], a.Inside E.v.bsize := by
    have h4 : (p : ℤ) + 4 = ((p + 4 : ℕ) : ℤ) := by push_cast; rfl
    simp only [List.forall_mem_cons, h4, BlockSpan.inside_iff]
    exact ⟨by omega, by omega, fun a ha => absurd ha List.not_mem_nil⟩
  have hwrite : ∀ a ∈ [(⟨(s'.loc : ℤ) - e2dReclen s'.buf p, e2dReclen s'.buf p⟩ : BlockSpan)],
      a.Inside E.v.bsize := by
    have hback : (s'.loc : ℤ) - e2dReclen s'.buf p = (p : ℕ) := by omega
    rw [List.forall_mem_singleton, hback, BlockSpan.inside_iff]
    omega
  have hpassed : (⟨p, e2dReclen s'.buf p, e2dIno s'.buf p, e2dNamlen s'.buf p⟩ : Passed).Ok E.v.bsize ↔
      NameSafe E m filesize p := by
    rw [← hh.name]
    constructor
    · exact fun hq => hq.name
    · exact fun hq => ⟨by show e2dReclen s'.buf p ≤ _; omega, by show p + e2dReclen s'.buf p ≤ _; omega, hq⟩
  have hsafe : ∀ {t : ByteScan σ} (as : List BlockSpan), (∀ a ∈ as, a.Inside E.v.bsize) →
      t.accesses = s'.accesses ++ as →
      t.passed = s'.passed ++ [⟨p, e2dReclen s'.buf p, e2dIno s'.buf p, e2dNamlen s'.buf p⟩] →
      (t.Safe E ↔ s.Safe E ∧ NextSafe E m filesize p ∧ NameSafe E m filesize p) := by
    intro t as has hacc hpas
    have h1 : (∀ a ∈ t.accesses, a.Inside E.v.bsize) ↔
        (∀ a ∈ s.accesses, a.Inside E.v.bsize) ∧ NextSafe E m filesize p := by
      rw [hacc, List.forall_mem_append, and_iff_left has, hh.accesses]
    have h2 : (∀ q ∈ t.passed, q.Ok E.v.bsize) ↔
        (∀ q ∈ s.passed, q.Ok E.v.bsize) ∧ NameSafe E m filesize p := by
      rw [hpas, List.forall_mem_append, List.forall_mem_singleton, hpassed, hh.passed]
    constructor
    · intro ht
      obtain ⟨ha, hn⟩ := h1.1 ht.accesses
      obtain ⟨hb, hm⟩ := h2.1 ht.passed
      exact ⟨⟨ha, hb⟩, hn, hm⟩
    · intro ⟨hs, hn, hm⟩
      exact ⟨h1.2 ⟨hs.accesses, hn⟩, h2.2 ⟨hs.passed, hm⟩⟩
  unfold dirscanBody
  simp only
  split
  · refine ⟨⟨rfl, hh.left, fun i hi => ?_, hh.aligned, hle, fun _ => hh.ok⟩,
      hsafe ([⟨(p : ℤ) + 4, 2⟩, ⟨p, e2dReclen s'.buf p⟩] ++
        [⟨(s'.loc : ℤ) - e2dReclen s'.buf p, e2dReclen s'.buf p⟩])
        (List.forall_mem_append.2 ⟨hreads, hwrite⟩) (by simp [ByteScan.touch]) rfl⟩
    show paste s'.buf (s'.loc - e2dReclen s'.buf p) _ 0 (e2dReclen s'.buf p) i = m i
    rw [paste_of_ge (by omega)]
    exact hh.buf i hi
  · exact ⟨⟨rfl, hh.left, hh.buf, hh.aligned, hle, fun _ => hh.ok⟩, hsafe _ hreads rfl rfl⟩

/-! ### The loop -/

/-- With nothing left the scan of the block ends. -/
theorem fsckReaddir_none (h : Head E m filesize p s) (hend : ¬(p < E.v.bsize ∧ 0 < filesize - p)) :
    fsckReaddir E answer s = (none, s) := by
  unfold fsckReaddir readdirOk
  rw [h.loc, h.left, if_neg fun hc => hend ⟨hc.2.2, hc.2.1⟩, if_pos (by omega)]

/-- What has been touched and handed over stays on record. -/
structure Grows (s s' : ByteScan σ) : Prop where
  accesses : s.accesses ⊆ s'.accesses
  passed : s.passed ⊆ s'.passed

theorem Grows.refl (s : ByteScan σ) : Grows s s := ⟨fun _ => id, fun _ => id⟩

theorem Grows.trans {s'' : ByteScan σ} (h : Grows s s') (h' : Grows s' s'') : Grows s s'' :=
  ⟨fun _ ha => h'.accesses (h.accesses ha), fun _ hq => h'.passed (h.passed hq)⟩

theorem Grows.safe (h : Grows s s') (hs : s'.Safe E) : s.Safe E :=
  ⟨fun a ha => hs.accesses a (h.accesses ha), fun q hq => hs.passed q (h.passed hq)⟩

theorem grows_touch (s : ByteScan σ) (as : List BlockSpan) : Grows s (s.touch as) :=
  ⟨List.subset_append_left _ _, fun _ => id⟩

theorem readdirOk_grows (s : ByteScan σ) : Grows s (readdirOk E answer s).2 := by
  unfold readdirOk
  simp only
  split
  · exact .refl s
  · split
    · exact ⟨List.subset_append_left _ _, fun _ => id⟩
    · split
      · split
        · split
          · exact ⟨fun _ ha => List.mem_append_left _ (List.mem_append_left _ ha), fun _ => id⟩
          · exact ⟨fun _ ha => List.mem_append_left _ (List.mem_append_left _ (List.mem_append_left _ ha)),
              fun _ => id⟩
        · exact ⟨fun _ ha => List.mem_append_left _ (List.mem_append_left _ ha), fun _ => id⟩
      · exact ⟨List.subset_append_left _ _, fun _ => id⟩

theorem fsckReaddir_grows (s : ByteScan σ) : Grows s (fsckReaddir E answer s).2 := by
  unfold fsckReaddir
  simp only
  split
  · split
    · exact (grows_touch s _).trans (readdirOk_grows _)
    · unfold readdirCorrupted
      split
      · exact grows_touch s _
      · exact ⟨fun _ ha => List.mem_append_left _ (List.mem_append_left _ ha), fun _ => id⟩
  · exact readdirOk_grows s

theorem dirscanBody_grows (s : ByteScan σ) (dp : ℕ) : Grows s (dirscanBody f s dp).1 := by
  unfold dirscanBody
  simp only
  split
  · exact ⟨fun _ ha => List.mem_append_left _ (List.mem_append_left _ ha), List.subset_append_left _ _⟩
  · exact ⟨List.subset_append_left _ _, List.subset_append_left _ _⟩

theorem dirscanBytesLoop_grows {fuel : ℕ} {r : ByteScan σ × Bool}
    (h : dirscanBytesLoop E answer f fuel s = some r) : Grows s r.1 := by
  induction fuel generalizing s with
  | zero => cases h
  | succ fuel ih =>
    unfold dirscanBytesLoop at h
    have hread : Grows s (fsckReaddir E answer s).2 := fsckReaddir_grows s
    split at h
    · next s₁ hs₁ =>
      obtain rfl := Option.some.inj h
      rwa [hs₁] at hread
    · next dp s₁ hs₁ =>
      rw [hs₁] at hread
      have hbody := dirscanBody_grows (f := f) s₁ dp
      split at h
      · next s₂ hs₂ =>
        obtain rfl := Option.some.inj h
        rw [hs₂] at hbody
        exact hread.trans hbody
      · next s₂ hs₂ =>
        rw [hs₂] at hbody
        exact (hread.trans hbody).trans (ih h)

/-- A policy other than `IGNORE` does not become it. -/
theorem dofix_fix {x : FixState} (hx : x ≠ .ignore) : (dofix answer x).2 ≠ .ignore := by
  cases x <;> cases answer <;> simp_all [dofix]

theorem fsckReaddir_fix (hs : s.fix ≠ .ignore) : (fsckReaddir E answer s).2.fix ≠ .ignore := by
  have hok : ∀ t : ByteScan σ, t.fix ≠ .ignore → (readdirOk E answer t).2.fix ≠ .ignore := by
    intro t ht
    unfold readdirOk
    simp only
    repeat' split
    all_goals first
      | exact ht
      | exact dofix_fix ht
  unfold fsckReaddir
  simp only
  split
  · split
    · exact hok _ hs
    · unfold readdirCorrupted
      rw [touch_fix, if_neg hs]
      exact dofix_fix hs
  · exact hok s hs

theorem dirscanBody_fix (s : ByteScan σ) (dp : ℕ) : (dirscanBody f s dp).1.fix = s.fix := by
  unfold dirscanBody
  simp only
  split <;> rfl

/-- What is asked of an offset at which a record is looked for. -/
def RecordSafe (E : DirEnv) (m : Mem) (filesize : ℤ) (p : ℕ) : Prop :=
  p + 8 ≤ E.v.bsize ∧ NameSafe E m filesize p

/-- **The loop comes back, and is safe**, if all that is looked for behind its head is. -/
theorem dirscanBytesLoop_safe {fuel : ℕ} (h : Head E m filesize p s) (hs : s.Safe E)
    (hall : p < E.v.bsize → 0 < filesize - p →
      ∀ q, Relation.ReflTransGen (NextExamined E m filesize) p q → RecordSafe E m filesize q)
    (hfuel : E.v.bsize - p < fuel) :
    ∃ r, dirscanBytesLoop E answer f fuel s = some r ∧ r.1.Safe E := by
  induction fuel generalizing s p with
  | zero => omega
  | succ fuel ih =>
    unfold dirscanBytesLoop
    by_cases hrec : p < E.v.bsize ∧ 0 < filesize - p
    · have hall' := hall hrec.1 hrec.2
      obtain ⟨h8, hname⟩ := hall' p .refl
      have hnext : NextSafe E m filesize p := fun q hq => (hall' q (.single hq)).1
      have hround : Readdir E m filesize p s (fsckReaddir E answer s) := fsckReaddir_spec h hrec.1 hrec.2 h8
      rcases hx : fsckReaddir E answer s with ⟨_ | dp, s₁⟩ <;> rw [hx] at hround <;> dsimp only [Readdir] at hround ⊢
      · obtain ⟨hc, -⟩ | ⟨-, -, hpas, hacc⟩ := hround
        · cases hc
        · refine ⟨_, rfl, hacc.2 ⟨hs.accesses, hnext⟩, ?_⟩
          rw [hpas]
          exact hs.passed
      · obtain ⟨hdp, hh⟩ | ⟨hc, -⟩ := hround
        · obtain rfl := Option.some.inj hdp
          obtain ⟨hhead, hsafe⟩ := dirscanBody_spec (f := f) hh h8
          have hs₂ := hsafe.2 ⟨hs, hnext, hname⟩
          rcases hy : dirscanBody f s₁ dp with ⟨s₂, _ | _⟩
          · rw [hy] at hhead hs₂
            have hlt := hh.lt
            have hle := hh.le
            exact ih hhead hs₂ (fun h1 h2 q hq => hall' q (.head (hh.next h1 h2) hq)) (by omega)
          · rw [hy] at hs₂
            exact ⟨_, rfl, hs₂⟩
        · cases hc
    · rw [fsckReaddir_none h hrec]
      exact ⟨_, rfl, hs⟩

/-- **A safe run of the loop** under a policy other than `IGNORE`, with a function that does not stop: all
that is looked for is safe. -/
theorem safe_of_dirscanBytesLoop {fuel : ℕ} {r : ByteScan σ × Bool} (h : Head E m filesize p s)
    (hf : ∀ d st, (f d st).stop = false) (hfix : s.fix ≠ .ignore) (h8 : p + 8 ≤ E.v.bsize)
    (hleft : 0 < filesize - p) (hr : dirscanBytesLoop E answer f fuel s = some r) (hsafe : r.1.Safe E) :
    ∀ q, Relation.ReflTransGen (NextExamined E m filesize) p q → RecordSafe E m filesize q := by
  induction fuel generalizing s p with
  | zero => cases hr
  | succ fuel ih =>
    unfold dirscanBytesLoop at hr
    have hround : Readdir E m filesize p s (fsckReaddir E answer s) := fsckReaddir_spec h (by omega) hleft h8
    have hfix₁ : (fsckReaddir E answer s).2.fix ≠ .ignore := fsckReaddir_fix hfix
    rcases hx : fsckReaddir E answer s with ⟨_ | dp, s₁⟩ <;> rw [hx] at hround hr hfix₁ <;>
      dsimp only [Readdir] at hround hr hfix₁
    · obtain ⟨hc, -⟩ | ⟨-, hign, -⟩ := hround
      · cases hc
      · exact absurd hign hfix
    · obtain ⟨hdp, hh⟩ | ⟨hc, -⟩ := hround
      · obtain rfl := Option.some.inj hdp
        obtain ⟨hhead, hiff⟩ := dirscanBody_spec (f := f) hh h8
        have hfix₂ := dirscanBody_fix (f := f) s₁ dp
        have hgo : (dirscanBody f s₁ dp).2 = false := hf _ _
        rcases hy : dirscanBody f s₁ dp with ⟨s₂, b⟩
        rw [hy] at hhead hiff hfix₂ hgo
        simp only at hr hgo
        rw [hy, hgo] at hr
        obtain ⟨-, hnext, hname⟩ := hiff.1 ((dirscanBytesLoop_grows hr).safe hsafe)
        intro q hq
        rcases hq.cases_head with rfl | ⟨q₁, hq₁, hrest⟩
        · exact ⟨h8, hname⟩
        · cases hgood : dircheckAt E m q₁ (filesize - q₁) with
          | true =>
            have hloc : s₁.loc = q₁ := hh.step q₁ hq₁ hgood
            rw [hloc] at hhead
            exact ih hhead (hfix₂ ▸ hfix₁) (hnext q₁ hq₁) hq₁.2.2.2 hr q hrest
          | false =>
            rcases hrest.cases_head with rfl | ⟨q₂, hq₂, -⟩
            · exact ⟨hnext q₁ hq₁, fun hok => absurd (hgood.symm.trans hok) Bool.false_ne_true⟩
            · exact absurd hq₂ (not_next hgood)
      · cases hc

end

section

variable (E : DirEnv) (m : Mem) (entryno : ℕ) (filesize : ℤ)

/-- **The scan of a block of arbitrary bytes** comes back, keeps to the block and hands over only records
that lie in it and hold their names, exactly where every record is looked for at least eight bytes before
the end of the block, and has a length that holds its name. -/
theorem dirscan_bytes_iff : DirscanSafe E m entryno filesize ↔
    ∀ p, Examined E m (startFilesize E entryno filesize) p →
      p + 8 ≤ E.v.bsize ∧ NameSafe E m (startFilesize E entryno filesize) p := by
  have hge := E.v.bsize_ge
  have hhead : ∀ {σ : Type} (st : σ) (dbuf : Mem) (policy : FixState),
      Head E m (startFilesize E entryno filesize) 0
        ⟨m, dbuf, 0, startFilesize E entryno filesize, policy, st, [], []⟩ := fun st dbuf policy =>
    ⟨rfl, by simp, fun _ _ => rfl, Nat.dvd_zero 4, Nat.zero_le _, fun h => absurd h (lt_irrefl 0)⟩
  constructor
  · intro hsafe p ⟨hpos, hp⟩
    obtain ⟨r, hr, hrs⟩ := hsafe Unit (fun d _ => ⟨false, false, d, ()⟩) () m .fix true
    exact safe_of_dirscanBytesLoop (hhead () m .fix) (fun _ _ => rfl) (by simp) (by omega) (by simpa using hpos) hr
      hrs p hp
  · intro hall σ f st dbuf policy answer
    refine dirscanBytesLoop_safe (hhead st dbuf policy) ⟨?_, ?_⟩ (fun _ hpos q hq => hall q ⟨?_, hq⟩) (by omega)
    · exact fun a ha => absurd ha List.not_mem_nil
    · exact fun q hq => absurd hq List.not_mem_nil
    · simpa using hpos

/-- An unused record that leaves four bytes of the block. -/
def tailBytes : Mem := fun i => ([(4, 0xfc), (5, 0x03)].lookup i).getD 0

/-- A record of 12 bytes with a type, for the inode 2, whose name has 200 bytes; the rest is not in use. -/
def longBytes : Mem := fun i =>
  ([(0, 2), (4, 12), (6, 200), (7, 2), (16, 0xf4), (17, 0x03)].lookup i).getD 0

/-- The length of the record in the last four bytes is read from behind the block; without the feature the
long name is handed over. -/
theorem dirscan_bytes_wrong : ¬DirscanSafe rootEnv tailBytes 0 1024 ∧
    ¬DirscanSafe { rootEnv with ftype := false } longBytes 0 1024 := by
  constructor
  · intro h
    obtain ⟨r, hr, hin⟩ := h Unit (fun d _ => ⟨false, false, d, ()⟩) () tailBytes .fix true
    have hread : (dirscanBytes rootEnv true (fun d _ => ⟨false, false, d, ()⟩) tailBytes tailBytes 0 1024 .fix
        ()).map (fun r => decide (⟨1024, 2⟩ ∈ r.1.accesses)) = some true := by decide +kernel
    rw [hr] at hread
    exact absurd (hin.accesses _ (of_decide_eq_true (Option.some.inj hread)) 0 (by decide)) (by decide)
  · intro h
    obtain ⟨r, hr, hin⟩ := h Unit (fun d _ => ⟨false, false, d, ()⟩) () longBytes .fix true
    have hpass : (dirscanBytes { rootEnv with ftype := false } true (fun d _ => ⟨false, false, d, ()⟩) longBytes
        longBytes 0 1024 .fix ()).map (fun r => decide (⟨0, 12, 2, 200⟩ ∈ r.1.passed)) = some true := by
      decide +kernel
    rw [hr] at hpass
    exact absurd ((hin.passed _ (of_decide_eq_true (Option.some.inj hpass))).name (by decide)) (by decide)

end

end Ext2fs.Fsck
