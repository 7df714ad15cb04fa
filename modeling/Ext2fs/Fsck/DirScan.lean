import Ext2fs.Dirent
import Ext2fs.Fsck.Ckinode
import Ext2fs.Fsck.Propagate
import Ext2fs.Lib.Splice

/-!
# The scan of a directory by fsck

A block of a directory is taken as the chain of records that is read from it, up to and with the first
one that `dircheck` refuses.  `dirscan` hands a copy of each record to the function of the pass, and
copies back what that function has made of it if it returns `ALTERED`.

* `DirRec`, `dircheck` — a record, and the check of `fsck_readdir`;
* `scanRecs`, `dirscan` — a block, the repair of a corrupted chain included;
* `scanBlocks` — the blocks that `ckinode` comes to;
* **`dirscan_ok`**, **`scanBlocks_ok`** — over well-formed chains these are plain scans.

All questions are answered yes.
-/

namespace Ext2fs.Fsck

open Splice

/-- A record of a directory, `struct ext2fs_direct_2`; the name has `e2d_namlen` bytes. -/
structure DirRec where
  e2d_ino : ℕ
  e2d_reclen : ℕ
  e2d_type : ℕ
  e2d_name : List UInt8
  /-- the bytes behind the name -/
  behind : List UInt8
  deriving DecidableEq, Repr

/-- `e2d_namlen` -/
def DirRec.namlen (r : DirRec) : ℕ := r.e2d_name.length

/-- The bytes from `e2d_name` on. -/
def DirRec.raw (r : DirRec) : List UInt8 := r.e2d_name ++ r.behind

/-- A record with no bytes but its length. -/
def unusedRec (reclen : ℕ) : DirRec := ⟨0, reclen, 0, [], []⟩

/-- `.` and `..` -/
def dotName : List UInt8 := [46]
def dotdotName : List UInt8 := [46, 46]

/-- `EXT2_FT_DIR` -/
def EXT2_FT_DIR : ℕ := 2

/-- What the passes over directories know of the volume, besides its layout. -/
structure DirEnv where
  v : Layout
  /-- Not revision 0, and `EXT2F_INCOMPAT_FTYPE` is set. -/
  ftype : Bool
  statemap : ℕ → InoState
  /-- `inot2ext2dt(typemap[i])` -/
  inoType : ℕ → ℕ
  /-- the directories in the order of `inpsort` -/
  inpsort : List ℕ
  /-- where `getnextinode` has found an inode in pass 1 -/
  slot : ℕ → ℕ
  /-- where `ginode` points for it -/
  ginode : ℕ → ℕ
  /-- the blocks that `ckinode` comes to in a directory, from its pointers and the number of blocks in its
  size; no pass over directories writes a block of pointers -/
  tree : List ℕ → ℕ → List ℕ
  /-- `setlarge` returns 1: not revision 0. -/
  large : Bool

variable (E : DirEnv)

/-- `dircheck` of the record at offset `loc`, with `filesize` bytes left. -/
def dircheck (loc : ℕ) (filesize : ℤ) (dp : DirRec) : Bool :=
  let spaceleft := E.v.bsize - loc % E.v.bsize
  if E.v.maxino < dp.e2d_ino ∨ dp.e2d_reclen = 0 ∨ spaceleft < dp.e2d_reclen ∨ dp.e2d_reclen % 4 ≠ 0 then
    false
  else if dp.e2d_ino = 0 then true
  else if E.ftype = false ∧ dp.e2d_type ≠ 0 then true
  else if dp.e2d_reclen < dirRecLen dp.namlen ∨ filesize < dirRecLen dp.namlen ∨
      EXT2FS_MAXNAMLEN < dp.namlen then false
  else dp.e2d_name.all fun c => c ≠ 0 ∧ c ≠ 47

/-- What the function of a pass makes of the copy of a record: the records in its place, `ALTERED`, `STOP`
and the state of the pass. -/
structure Reply (σ : Type*) where
  recs : List DirRec
  altered : Bool
  stop : Bool
  st : σ

/-- What stands in the block afterwards. -/
def Reply.step {σ : Type*} (r : Reply σ) (dp : DirRec) : Step DirRec σ :=
  ⟨if r.altered then r.recs else [dp], r.stop, r.st⟩

section

variable {σ : Type*} (f : DirRec → σ → Reply σ)

/-- The call for one record. -/
def onRec (dp : DirRec) (st : σ) : Step DirRec σ := (f dp st).step dp

/-- The records of a block from the one at `loc` on, which `dircheck` has let pass.  If the next one is
bad, the record takes the rest of the block. -/
def scanRecs : List DirRec → ℕ → ℤ → σ → Step DirRec σ × ℤ
  | [], _, filesize, st => (⟨[], false, st⟩, filesize)
  | dp :: rest, loc, filesize, st =>
    if filesize ≤ 0 then (⟨dp :: rest, false, st⟩, filesize)
    else
      let loc' := loc + dp.e2d_reclen
      let left := filesize - dp.e2d_reclen
      if loc' % E.v.bsize ≠ 0 ∧ 0 < left ∧ (rest.head?.any (dircheck E loc' left)) = false then
        let size := E.v.bsize - loc' % E.v.bsize
        (onRec f { dp with e2d_reclen := dp.e2d_reclen + size } st, left - size)
      else
        let r := onRec f dp st
        if r.stop then (⟨r.out ++ rest, true, r.st⟩, left)
        else
          let s := scanRecs rest loc' left r.st
          (⟨r.out ++ s.1.out, s.1.stop, s.1.st⟩, s.2)

/-- `dirscan` of a block that is in range: the records that stand in it afterwards, `STOP`, and the rest
of the size.  A bad first record becomes an unused one of the size of the block. -/
def dirscan (recs : List DirRec) (filesize : ℤ) (st : σ) : Step DirRec σ × ℤ :=
  if 0 < filesize ∧ (recs.head?.any (dircheck E 0 filesize)) = false then
    (onRec f (unusedRec E.v.bsize) st, filesize - E.v.bsize)
  else scanRecs E f recs 0 filesize st

/-- The blocks of a directory in the order in which `ckinode` comes to them, until a call stops or the
size is used up. -/
def scanBlocks : List ℕ → ℤ → (ℕ → List DirRec) → σ → Bool × (ℕ → List DirRec) × σ
  | [], _, blocks, st => (false, blocks, st)
  | b :: bs, filesize, blocks, st =>
    if E.v.inRange b then
      let r := dirscan E f (blocks b) filesize st
      if r.1.stop then (true, Function.update blocks b r.1.out, r.1.st)
      else if 0 < r.2 then scanBlocks bs r.2 (Function.update blocks b r.1.out) r.1.st
      else (false, Function.update blocks b r.1.out, r.1.st)
    else scanBlocks bs (filesize - E.v.bsize) blocks st

/-- `roundup` to the size of a block. -/
def roundupBsize (n : ℕ) : ℕ := blocksFor n E.v.bsize * E.v.bsize

end

/-! ### Well-formed chains -/

/-- A record that is in order: the checks of `dircheck`, the space of the shortest name (which the driver
asks for in every record), and a name if the record is in use. -/
structure DirRec.Ok (r : DirRec) : Prop where
  ino_le : r.e2d_ino ≤ E.v.maxino
  aligned : 4 ∣ r.e2d_reclen
  min_le : dirRecLen 1 ≤ r.e2d_reclen
  fits : r.e2d_ino ≠ 0 → dirRecLen r.namlen ≤ r.e2d_reclen
  name_ne : r.e2d_ino ≠ 0 → r.e2d_name ≠ []
  name_le : r.e2d_ino ≠ 0 → r.namlen ≤ EXT2FS_MAXNAMLEN
  name_bytes : r.e2d_ino ≠ 0 → ∀ c ∈ r.e2d_name, c ≠ 0 ∧ c ≠ 47

/-- A block whose records are in order and fill it. -/
structure BlockOk (recs : List DirRec) : Prop where
  recs_ok : ∀ r ∈ recs, r.Ok E
  fills : space DirRec.e2d_reclen recs = E.v.bsize

theorem dirRecLen_one : dirRecLen 1 = 12 := rfl

theorem dirRecLen_two : dirRecLen 2 = 12 := rfl

variable {E} {σ : Type*} {f : DirRec → σ → Reply σ} {r : DirRec} {recs rest : List DirRec} {loc : ℕ}
  {filesize : ℤ} {st : σ}

theorem DirRec.Ok.pos (h : r.Ok E) : 12 ≤ r.e2d_reclen := dirRecLen_one ▸ h.min_le

/-- `dircheck` lets a record pass that is in order and has the space it names. -/
theorem dircheck_ok (h : r.Ok E) (hloc : loc + r.e2d_reclen ≤ E.v.bsize) (hfs : (r.e2d_reclen : ℤ) ≤ filesize) :
    dircheck E loc filesize r = true := by
  have hpos := h.pos
  have hmod : loc % E.v.bsize = loc := Nat.mod_eq_of_lt (by omega)
  have halign : r.e2d_reclen % 4 = 0 := Nat.mod_eq_zero_of_dvd h.aligned
  have hino := h.ino_le
  unfold dircheck
  rw [hmod]
  simp only
  rw [if_neg (by omega)]
  by_cases hlive : r.e2d_ino = 0
  · rw [if_pos hlive]
  · have hfit := h.fits hlive
    have hlen := h.name_le hlive
    rw [if_neg hlive]
    split
    · rfl
    · rw [if_neg (by omega), List.all_eq_true]
      exact fun c hc => decide_eq_true (h.name_bytes hlive c hc)

/-- The records from one on that fill the block up are scanned one after the other. -/
theorem scanRecs_ok (h : ∀ r ∈ recs, r.Ok E) (hloc : loc + space DirRec.e2d_reclen recs = E.v.bsize)
    (hfs : (space DirRec.e2d_reclen recs : ℤ) ≤ filesize) (st : σ) :
    (scanRecs E f recs loc filesize st).1 = sweep (onRec f) recs st ∧
      ((sweep (onRec f) recs st).stop = false →
        (scanRecs E f recs loc filesize st).2 = filesize - space DirRec.e2d_reclen recs) := by
  induction recs generalizing loc filesize st with
  | nil => exact ⟨rfl, fun _ => (sub_zero filesize).symm⟩
  | cons dp rest ih =>
    have hpos := (h dp List.mem_cons_self).pos
    have hrest : ∀ r ∈ rest, r.Ok E := fun r hr => h r (List.mem_cons_of_mem dp hr)
    rw [space_cons] at hloc hfs
    have hgood : ¬((loc + dp.e2d_reclen) % E.v.bsize ≠ 0 ∧ 0 < filesize - dp.e2d_reclen ∧
        (rest.head?.any (dircheck E (loc + dp.e2d_reclen) (filesize - dp.e2d_reclen))) = false) := by
      rintro ⟨hmod, -, hbad⟩
      cases rest with
      | nil =>
        rw [space_nil, Nat.add_zero] at hloc
        exact hmod (by rw [hloc, Nat.mod_self])
      | cons next rest =>
        have hok : dircheck E (loc + dp.e2d_reclen) (filesize - dp.e2d_reclen) next = true := by
          rw [space_cons] at hloc hfs
          exact dircheck_ok (hrest next List.mem_cons_self) (by omega) (by omega)
        simp [hok] at hbad
    have hloc' : loc + dp.e2d_reclen + space DirRec.e2d_reclen rest = E.v.bsize := by omega
    have hfs' : (space DirRec.e2d_reclen rest : ℤ) ≤ filesize - dp.e2d_reclen := by omega
    obtain ⟨h1, h2⟩ := ih hrest hloc' hfs' (onRec f dp st).st
    unfold scanRecs
    rw [if_neg (by omega)]
    simp only
    rw [if_neg hgood]
    cases hstop : (onRec f dp st).stop with
    | true =>
      rw [if_pos rfl, sweep_stop rest hstop]
      exact ⟨rfl, fun hc => absurd hc (by simp)⟩
    | false =>
      rw [if_neg (by decide), sweep_go rest hstop, h1, space_cons]
      exact ⟨rfl, fun hc => by rw [h2 hc]; push_cast; omega⟩

theorem Layout.bsize_ge (v : Layout) : 1024 ≤ v.bsize := by
  rcases v.toVolume.cases.1 with ⟨h, -⟩ | ⟨h, -⟩ | ⟨h, -⟩ <;> rw [h] <;> decide

theorem BlockOk.ne_nil (h : BlockOk E recs) : recs ≠ [] := by
  rintro rfl
  have hfill := h.fills
  have hsize := E.v.bsize_ge
  rw [space_nil] at hfill
  omega

/-- **A well-formed block** is scanned record by record. -/
theorem dirscan_ok (h : BlockOk E recs) (hfs : (E.v.bsize : ℤ) ≤ filesize) (st : σ) :
    (dirscan E f recs filesize st).1 = sweep (onRec f) recs st ∧
      ((sweep (onRec f) recs st).stop = false →
        (dirscan E f recs filesize st).2 = filesize - E.v.bsize) := by
  have hfill := h.fills
  cases recs with
  | nil => exact absurd rfl h.ne_nil
  | cons r rest =>
    have hfirst : dircheck E 0 filesize r = true := by
      rw [space_cons] at hfill
      exact dircheck_ok (h.recs_ok r List.mem_cons_self) (by omega) (by omega)
    unfold dirscan
    rw [if_neg (by simp [hfirst])]
    have hloc : 0 + space DirRec.e2d_reclen (r :: rest) = E.v.bsize := by omega
    have hleft : (space DirRec.e2d_reclen (r :: rest) : ℤ) ≤ filesize := by omega
    have hscan := scanRecs_ok (f := f) h.recs_ok hloc hleft st
    rwa [hfill] at hscan

/-- What every call does to the state, the scan of a block does, well formed or not. -/
theorem dirscan_state {R : σ → σ → Prop} (hrefl : ∀ s, R s s) (htrans : ∀ s t u, R s t → R t u → R s u)
    (hf : ∀ dp st, R st (f dp st).st) (recs : List DirRec) (filesize : ℤ) (st : σ) :
    R st (dirscan E f recs filesize st).1.st := by
  have hrecs : ∀ (recs : List DirRec) (loc : ℕ) (filesize : ℤ) (st : σ),
      R st (scanRecs E f recs loc filesize st).1.st := by
    intro recs
    induction recs with
    | nil => exact fun _ _ st => hrefl st
    | cons dp rest ih =>
      intro loc filesize st
      unfold scanRecs
      simp only
      split
      · exact hrefl st
      · split
        · exact hf _ st
        · split
          · exact hf _ st
          · exact htrans _ _ _ (hf _ st) (ih _ _ _)
  unfold dirscan
  split
  · exact hf _ st
  · exact hrecs _ _ _ _

theorem scanBlocks_state {R : σ → σ → Prop} (hrefl : ∀ s, R s s) (htrans : ∀ s t u, R s t → R t u → R s u)
    (hf : ∀ dp st, R st (f dp st).st) (bs : List ℕ) (filesize : ℤ) (blocks : ℕ → List DirRec) (st : σ) :
    R st (scanBlocks E f bs filesize blocks st).2.2 := by
  induction bs generalizing filesize blocks st with
  | nil => exact hrefl st
  | cons b bs ih =>
    have hblock := dirscan_state (E := E) hrefl htrans hf (blocks b) filesize st
    unfold scanBlocks
    simp only
    split
    · split
      · exact hblock
      · split
        · exact htrans _ _ _ hblock (ih _ _ _)
        · exact hblock
    · exact ih _ _ _

/-- When no size is left, nothing is scanned. -/
theorem scanBlocks_none {bs : List ℕ} (hfs : filesize ≤ 0) (blocks : ℕ → List DirRec) (st : σ) :
    scanBlocks E f bs filesize blocks st = (false, blocks, st) := by
  have hblock : ∀ {n : ℤ}, n ≤ 0 → ∀ recs, dirscan E f recs n st = (⟨recs, false, st⟩, n) := by
    intro n hn recs
    unfold dirscan
    rw [if_neg fun h => absurd h.1 (by omega)]
    cases recs with
    | nil => rfl
    | cons r recs => exact if_pos hn
  induction bs generalizing filesize with
  | nil => rfl
  | cons b bs ih =>
    unfold scanBlocks
    simp only
    split
    · rw [hblock hfs, if_neg Bool.false_ne_true, if_neg (by omega), Function.update_eq_self]
    · exact ih (by omega)

/-- A block that is not among those of the directory is not touched. -/
theorem scanBlocks_frame {bs : List ℕ} {b : ℕ} (hb : b ∉ bs) (blocks : ℕ → List DirRec) (filesize : ℤ) (st : σ) :
    (scanBlocks E f bs filesize blocks st).2.1 b = blocks b := by
  induction bs generalizing blocks filesize st with
  | nil => rfl
  | cons c bs ih =>
    obtain ⟨hne, hnot⟩ := not_or.1 (mt List.mem_cons.2 hb)
    have hkeep : ∀ l, Function.update blocks c l b = blocks b := fun l => Function.update_of_ne hne l blocks
    unfold scanBlocks
    simp only
    split
    · split
      · exact hkeep _
      · split
        · exact (ih hnot _ _ _).trans (hkeep _)
        · exact hkeep _
    · exact ih hnot _ _ _

section

variable {bs : List ℕ} {blocks : ℕ → List DirRec} {b : ℕ}

/-- The first block, if it is well formed and the size reaches that far. -/
theorem scanBlocks_cons (hrange : E.v.inRange b = true) (hok : BlockOk E (blocks b))
    (hfs : filesize = (b :: bs).length * E.v.bsize) (st : σ) :
    scanBlocks E f (b :: bs) filesize blocks st =
      if (sweep (onRec f) (blocks b) st).stop then
        (true, Function.update blocks b (sweep (onRec f) (blocks b) st).out, (sweep (onRec f) (blocks b) st).st)
      else scanBlocks E f bs (bs.length * E.v.bsize)
        (Function.update blocks b (sweep (onRec f) (blocks b) st).out) (sweep (onRec f) (blocks b) st).st := by
  have hcount : filesize = bs.length * E.v.bsize + E.v.bsize := by
    rw [hfs, List.length_cons]
    push_cast
    ring
  have hnn : (0 : ℤ) ≤ bs.length * E.v.bsize := by positivity
  have hreach : (E.v.bsize : ℤ) ≤ filesize := by omega
  obtain ⟨h1, h2⟩ := dirscan_ok (f := f) hok hreach st
  conv_lhs => unfold scanBlocks
  rw [if_pos hrange]
  simp only
  rw [h1]
  cases hstop : (sweep (onRec f) (blocks b) st).stop with
  | true => rw [if_pos rfl, if_pos rfl]
  | false =>
    have hleft : (dirscan E f (blocks b) filesize st).2 = bs.length * E.v.bsize := by
      rw [h2 hstop]
      omega
    rw [if_neg Bool.false_ne_true, if_neg Bool.false_ne_true, hleft]
    -- when no block is left, the size is used up
    cases bs with
    | nil => simp [scanBlocks]
    | cons c bs =>
      have hsize := E.v.bsize_ge
      have hpos : (0 : ℤ) < (c :: bs).length * E.v.bsize := by
        rw [List.length_cons]
        positivity
      rw [if_pos hpos]

/-- What a scan does to every well-formed block holds of the blocks of the directory. -/
theorem scanBlocks_rel {R : List DirRec → List DirRec → Prop} (hrefl : ∀ l, R l l)
    (hscan : ∀ l st, BlockOk E l → R l (sweep (onRec f) l st).out)
    (hrange : ∀ b ∈ bs, E.v.inRange b = true) (hok : ∀ b ∈ bs, BlockOk E (blocks b)) (hnd : bs.Nodup)
    (hfs : filesize = bs.length * E.v.bsize) (st : σ) (b : ℕ) :
    R (blocks b) ((scanBlocks E f bs filesize blocks st).2.1 b) := by
  induction bs generalizing blocks filesize st with
  | nil => exact hrefl _
  | cons c bs ih =>
    obtain ⟨hc, hbs⟩ := List.forall_mem_cons.1 hok
    obtain ⟨hnot, hnd⟩ := List.nodup_cons.1 hnd
    have hsame : ∀ d ∈ bs, Function.update blocks c (sweep (onRec f) (blocks c) st).out d = blocks d :=
      fun d hd => Function.update_of_ne (fun h => hnot (by rwa [← h])) _ _
    have hbs' : ∀ d ∈ bs, BlockOk E (Function.update blocks c (sweep (onRec f) (blocks c) st).out d) :=
      fun d hd => (hsame d hd).symm ▸ hbs d hd
    have hfirst : R (blocks b) (Function.update blocks c (sweep (onRec f) (blocks c) st).out b) := by
      rcases eq_or_ne b c with rfl | hne
      · rw [Function.update_self]
        exact hscan _ _ hc
      · rw [Function.update_of_ne hne]
        exact hrefl _
    rw [scanBlocks_cons (hrange c List.mem_cons_self) hc hfs]
    split
    · exact hfirst
    · by_cases hb : b ∈ bs
      · have hrest := ih (fun d hd => hrange d (List.mem_cons_of_mem c hd)) hbs' hnd rfl
          (sweep (onRec f) (blocks c) st).st
        rwa [hsame b hb] at hrest
      · rw [scanBlocks_frame hb]
        exact hfirst

/-- **The blocks of a directory** that are well formed, under a function that never stops: what a block
holds afterwards is what the scan makes of it, in the state in which it comes there. -/
theorem scanBlocks_go (hgo : ∀ dp st, (f dp st).stop = false)
    (hrange : ∀ b ∈ bs, E.v.inRange b = true) (hok : ∀ b ∈ bs, BlockOk E (blocks b)) (hnd : bs.Nodup)
    (hfs : filesize = bs.length * E.v.bsize) (st : σ) :
    (scanBlocks E f bs filesize blocks st).2.2 = (sweep (onRec f) (bs.flatMap blocks) st).st ∧
    ∀ pre b post, bs = pre ++ b :: post → (scanBlocks E f bs filesize blocks st).2.1 b =
      (sweep (onRec f) (blocks b) (sweep (onRec f) (pre.flatMap blocks) st).st).out := by
  have hgoes : ∀ (l : List DirRec) (st : σ), (sweep (onRec f) l st).stop = false :=
    sweep_goes fun dp st => hgo dp st
  induction bs generalizing blocks filesize st with
  | nil => exact ⟨rfl, fun pre b post h => by simp at h⟩
  | cons c bs ih =>
    obtain ⟨hc, hbs⟩ := List.forall_mem_cons.1 hok
    obtain ⟨hnot, hnd⟩ := List.nodup_cons.1 hnd
    have hsame : ∀ d ∈ bs, Function.update blocks c (sweep (onRec f) (blocks c) st).out d = blocks d :=
      fun d hd => Function.update_of_ne (fun h => hnot (by rwa [← h])) _ _
    have hflat : ∀ l : List ℕ, (∀ d ∈ l, d ∈ bs) →
        l.flatMap (Function.update blocks c (sweep (onRec f) (blocks c) st).out) = l.flatMap blocks :=
      fun l hl => List.flatMap_congr fun d hd => hsame d (hl d hd)
    have hsplit : ∀ l : List DirRec, (sweep (onRec f) (blocks c ++ l) st).st =
        (sweep (onRec f) l (sweep (onRec f) (blocks c) st).st).st := fun l => by rw [sweep_append l (hgoes _ _)]
    have hbs' : ∀ d ∈ bs, BlockOk E (Function.update blocks c (sweep (onRec f) (blocks c) st).out d) :=
      fun d hd => (hsame d hd).symm ▸ hbs d hd
    obtain ⟨h1, h2⟩ := ih (fun d hd => hrange d (List.mem_cons_of_mem c hd)) hbs' hnd rfl
      (sweep (onRec f) (blocks c) st).st
    rw [scanBlocks_cons (hrange c List.mem_cons_self) hc hfs, if_neg (by rw [hgoes]; decide)]
    refine ⟨?_, fun pre b post h => ?_⟩
    · rw [h1, hflat bs fun d hd => hd, List.flatMap_cons, hsplit]
    · cases pre with
      | nil =>
        rw [List.nil_append, List.cons.injEq] at h
        rw [← h.1, scanBlocks_frame hnot, Function.update_self]
        rfl
      | cons d pre =>
        rw [List.cons_append, List.cons.injEq] at h
        rw [h2 pre b post h.2, hsame b (h.2 ▸ by simp), hflat pre fun e he => h.2 ▸ by simp [he], ← h.1,
          List.flatMap_cons, hsplit]

end

end Ext2fs.Fsck
