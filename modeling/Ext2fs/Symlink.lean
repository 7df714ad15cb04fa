import Ext2fs.NewInode
import Ext2fs.MetaRead
import Ext2fs.LockRules

/-!
# Symbolic links: `ext2_symlink` and `ext2_readlink`

A target of less than 60 bytes is stored over the block pointers of the inode, and a longer one in data
blocks, through `vn_rdwr` and the write path of directories (`ext2_meta_write`).

* `shortlink_setShortlink` — the bytes over the pointers are what was stored there;
* `metaWrite_spec` — a write that succeeds leaves its bytes in the file;
* `readlink_short`, `readlink_long` — what comes back from either place;
* `symlink_readlink_iff` — **a target comes back as the interface has it exactly if it is short**: the
  read of a long one goes through a uio of `vn_rdwr`, and the caller's own stays where it is.
-/

namespace Ext2fs

open Bytes

/-! ### The bytes over the pointers -/

/-- The fifteen words of `i_db` and, behind it, `i_ib`. -/
def CoreInode.ptrWord (ip : CoreInode) (k : ℕ) : BitVec 32 :=
  if h : k < 12 then ip.i_db ⟨k, h⟩ else if h : k - 12 < 3 then ip.i_ib ⟨k - 12, h⟩ else 0

/-- `(char *)ip->i_shortlink`, on a little-endian machine. -/
def CoreInode.shortlink (ip : CoreInode) : Mem := fun i =>
  UInt8.ofNat ((ip.ptrWord (i / 4)).toNat / 256 ^ (i % 4))

/-- The inode with the given bytes over its pointers. -/
def CoreInode.setShortlink (m : Mem) (ip : CoreInode) : CoreInode :=
  { ip with
    i_db := fun k => BitVec.ofNat 32 (le 4 m (4 * k))
    i_ib := fun k => BitVec.ofNat 32 (le 4 m (4 * (k + 12))) }

/-! ### The functions -/

/-- A file whose contents are in the buffer cache: the inode, and the bytes as its buffers show them. -/
structure MetaFile where
  ip : CoreInode
  data : Mem

/-- What a call of `ext2_balloc` writes: pointers, the block count and flags of the inode, and, where the
block is new, what its buffer holds before it is cleared. -/
structure BallocChange where
  i_db : Fin 12 → BitVec 32
  i_ib : Fin 3 → BitVec 32
  i_blocks : BitVec 64
  i_flag : BitVec 32
  fresh : Option Mem

/-- The rest of the kernel during a write; `balloc` is `ext2_balloc` of a block. -/
structure MetaWriteEnv where
  balloc : ℕ → MetaFile → Except Errno BallocChange
  /-- `uiomove` at an offset -/
  uiomove : ℕ → Option Errno
  /-- `buf_bwrite` of a block -/
  bwrite : ℕ → Option Errno

/-- The file after `ext2_balloc` of block `lbn`; with `BA_CLRBUF` a new block is cleared. -/
def MetaFile.balloc (fs : MExt2fs) (lbn : ℕ) (clrbuf : Bool) (c : BallocChange) (f : MetaFile) :
    MetaFile where
  ip := { f.ip with i_db := c.i_db, i_ib := c.i_ib, i_blocks := c.i_blocks, i_flag := c.i_flag }
  data :=
    match c.fresh with
    | none => f.data
    | some junk => fun i => if fs.lblkno i = lbn then (if clrbuf then 0 else junk i) else f.data i

/-- What a write has done: `error`, `uio_resid` and the file. -/
structure MetaWriteRes where
  error : Option Errno
  resid : ℕ
  file : MetaFile

section

variable (fs : MExt2fs) (env : MetaWriteEnv) (sync : Bool) (src : Mem)

/-- The loop of `ext2_meta_write`, from an offset that is not negative: `done` bytes of `src` are written.
Nothing when the rounds do not suffice. -/
def metaWriteLoop : ℕ → ℕ → ℕ → ℕ → MetaFile → Option MetaWriteRes
  | 0, _, _, _, _ => none
  | fuel + 1, off, done, resid, f =>
      if 0 < resid then
        let lbn := fs.lblkno off
        let blkoffset := fs.blkoff off
        let xfersize := min (fs.bsize - blkoffset) resid
        match env.balloc lbn f with
        | .error e => some ⟨some e, resid, f⟩
        | .ok c =>
            -- the rest of a block that is not written as a whole has to be cleared
            let f := f.balloc fs lbn (!(xfersize = fs.bsize ∧ blkoffset = 0)) c
            match env.uiomove off with
            | some e => some ⟨some e, resid, f⟩
            | none =>
                let bytes := off + xfersize
                let size := if f.ip.i_size.toNat < bytes then BitVec.ofNat 64 bytes else f.ip.i_size
                let f : MetaFile :=
                  ⟨{ f.ip with i_size := size }, paste f.data off src done xfersize⟩
                match if sync then env.bwrite lbn else none with
                | some e => some ⟨some e, resid - xfersize, f⟩
                | none => metaWriteLoop fuel bytes (done + xfersize) (resid - xfersize) f
      else some ⟨none, resid, f⟩

/-- `ext2_meta_write` of the first `resid` bytes of `src` at an offset. -/
def metaWrite (off resid : ℕ) (f : MetaFile) : Option MetaWriteRes :=
  (metaWriteLoop fs env sync src (resid + 1) off 0 resid f).map fun r =>
    { r with file := { r.file with ip := r.file.ip.mark (IN_CHANGE ||| IN_UPDATE) } }

end

/-- `vn_rdwr`, of a buffer in the kernel at offset 0 of a file: it makes a uio of its own and calls the
vnop that it is given.  A write has the error and the file that it leaves, a read of `len` bytes to an
address the error and the memory. -/
structure VnRdwr where
  write : (Mem → ℕ → MetaFile → Option MetaWriteRes) → Mem → ℕ → MetaFile → Option Errno × MetaFile
  read : (ℕ → MetaFile → Option MetaReadRes) → ℕ → ℕ → MetaFile → Mem → Option Errno × Mem

/-- The error of `vn_rdwr` without a place for the residual count: a short transfer is one. -/
def shortError (error : Option Errno) (resid : ℕ) : Option Errno :=
  match error with
  | some e => some e
  | none => if resid = 0 then none else some .eio

/-- What `vn_rdwr` is documented to do when the vnop returns. -/
structure VnRdwr.Documented (v : VnRdwr) : Prop where
  write : ∀ vnop src len f r, vnop src len f = some r →
    v.write vnop src len f = (shortError r.error r.resid, r.file)
  read : ∀ vnop base len f mem r, vnop len f = some r →
    v.read vnop base len f mem =
      (shortError r.error r.resid, paste mem base (ofList r.data) 0 r.data.length)

/-- `struct uio` with one vector: `uio_curriovbase`, `uio_offset` and `uio_resid`. -/
structure Uio where
  base : ℕ
  offset : ℤ
  resid : ℕ
  deriving DecidableEq

/-- `uiomove` to the memory of a uio; `fault` is its error. -/
def uiomove (fault : Option Errno) (src : Mem) (n : ℕ) (u : Uio) (mem : Mem) :
    Option Errno × Uio × Mem :=
  match fault with
  | some e => (some e, u, mem)
  | none =>
      let k := min n u.resid
      (none, ⟨u.base + k, u.offset + k, u.resid - k⟩, paste mem u.base src 0 k)

/-- `IFLNK` -/
def LINKMODE : BitVec 16 := 0xa000

section

variable (fs : MExt2fs) (hasXtime async : Bool) (v : VnRdwr)

/-- The creation that `ext2_symlink` asks `ext2_makeinode` for; `q.mode` is `va_mode`. -/
def linkReq (q : CreateReq) : CreateReq := { q with directory := false, mode := LINKMODE ||| q.mode }

/-- `ext2_symlink`.  `fails` is the error of `ext2_makeinode`, and `data` what the buffers show of a file
without blocks. -/
def ext2Symlink (env : MetaWriteEnv) (q : CreateReq) (past : Past) (fails : Option Errno) (data : Mem)
    (target : List UInt8) : Except Errno MetaFile :=
  match fails, createFile fs hasXtime async (linkReq q) past with
  | some e, _ => .error e
  | none, none => .error .eio
  | none, some file =>
      let len := target.length
      if len < EXT2_MAXSYMLINKLEN then
        let ip := file.core.setShortlink (paste file.core.shortlink 0 (ofList target) 0 len)
        .ok ⟨CoreInode.mark (IN_CHANGE ||| IN_UPDATE) { ip with i_size := BitVec.ofNat 64 len }, data⟩
      else
        match v.write (fun src len f => metaWrite fs env false src 0 len f) (ofList target) len
            ⟨file.core, data⟩ with
        | (some e, _) => .error e
        | (none, f) => .ok f

/-- `ext2_readlink`, with the uio and the memory that it leaves. -/
def ext2Readlink (env : MetaEnv) (fault : Option Errno) (f : MetaFile) (u : Uio) (mem : Mem) :
    Option Errno × Uio × Mem :=
  let isize := i32 f.ip.i_size.toNat
  if isize < EXT2_MAXSYMLINKLEN then uiomove fault f.ip.shortlink isize.toNat u mem
  else
    let r := v.read (fun len f => metaRead fs env f.data f.ip.i_size.toNat 0 len) u.base isize.toNat f
      mem
    (r.1, u, r.2)

/-- The file after its inode was written out by `ext2_update` to its place in the inode table, which held
`ei`, and read back by `ext2_vget`. -/
def MetaFile.reread (ei : Ext2fsDinode) (now : Timespec) (rand : BitVec 32) (f : MetaFile) : MetaFile :=
  let image := ext2I2ei hasXtime (f.ip.toWrite ⟨fs, hasXtime, async, false⟩ now) ei
  { f with ip := vgetFill fs hasXtime rand image }

/-- What the caller of `ext2_readlink` relies on: it returns 0, the bytes of the target stand where the
uio was, and the uio is behind them. -/
structure ReadsTarget (env : MetaEnv) (fault : Option Errno) (target : List UInt8) (f : MetaFile)
    (u : Uio) (mem : Mem) : Prop where
  error : (ext2Readlink fs v env fault f u mem).1 = none
  data : (ext2Readlink fs v env fault f u mem).2.2 = paste mem u.base (ofList target) 0 target.length
  offset : (ext2Readlink fs v env fault f u mem).2.1.offset = u.offset + target.length
  resid : (ext2Readlink fs v env fault f u mem).2.1.resid + target.length = u.resid

end

/-! ### The bytes over the pointers -/

/-- **The bytes over the pointers** are those that were stored there. -/
theorem shortlink_setShortlink (m : Mem) (ip : CoreInode) {i : ℕ} (h : i < 60) :
    (ip.setShortlink m).shortlink i = m i := by
  have hword : (ip.setShortlink m).ptrWord (i / 4) = BitVec.ofNat 32 (le 4 m (4 * (i / 4))) := by
    unfold CoreInode.ptrWord CoreInode.setShortlink
    dsimp only
    split
    · rfl
    · rw [dif_pos (by omega), Nat.sub_add_cancel (by omega)]
  have hlt : le 4 m (4 * (i / 4)) < 2 ^ 32 := le_lt 4 m _
  unfold CoreInode.shortlink
  rw [hword, BitVec.toNat_ofNat, Nat.mod_eq_of_lt hlt, le_byte m _ (Nat.mod_lt i (by decide)),
    Nat.div_add_mod]

/-! ### The inode of a new link -/

section

variable {fs : MExt2fs} {hasXtime async : Bool} {v : VnodeEnv} {waitfor : Bool} {now : Timespec}

/-- The fields that say what a link holds. -/
structure SameContents (ip ip' : CoreInode) : Prop where
  size : ip'.i_size = ip.i_size
  mode : ip'.i_mode = ip.i_mode
  nlink : ip'.i_nlink = ip.i_nlink
  db : ip'.i_db = ip.i_db
  ib : ip'.i_ib = ip.i_ib

variable (v waitfor now) in
theorem itimes_contents (ip : CoreInode) : SameContents ip (ext2Itimes v now ip) := by
  obtain ⟨_, _, _, _, _, _, _, h⟩ := itimes_frame ip v now
  rw [h]
  exact ⟨rfl, rfl, rfl, rfl, rfl⟩

/-- What is over the pointers depends on the pointers only. -/
theorem SameContents.shortlink {ip ip' : CoreInode} (h : SameContents ip ip') :
    ip'.shortlink = ip.shortlink := by
  unfold CoreInode.shortlink CoreInode.ptrWord
  rw [h.db, h.ib]

variable (v waitfor now) in
theorem update_contents (s : InCore) :
    SameContents s.ip (InCore.ext2Update v waitfor now .ok s).2.ip := by
  have htimes := itimes_contents v now s.ip
  have hwritten : SameContents s.ip (s.ip.toWrite v now) :=
    ⟨htimes.size, htimes.mode, htimes.nlink, htimes.db, htimes.ib⟩
  rcases update_cases v waitfor now .ok s with
    ⟨-, h⟩ | ⟨-, ⟨e, -, h⟩ | ⟨e, -, -, -, h⟩ | ⟨-, h⟩⟩ <;> rw [h]
  · exact htimes
  · exact hwritten
  · exact hwritten
  · exact hwritten

/-- Bit 13 is set in the mode of a link, and not in that of a regular file or a directory. -/
theorem not_reg_of_link {mode : BitVec 16} (h : mode.getLsbD 13 = true) :
    S_ISREG mode = false ∧ S_ISDIR mode = false := by
  have hbit : (mode &&& 0xf000).getLsbD 13 = true := by
    rw [BitVec.getLsbD_and, h]
    decide
  have hne : ∀ x : BitVec 16, x.getLsbD 13 = false → (mode &&& 0xf000 == x) = false := by
    intro x hx
    apply beq_eq_false_iff_ne.2
    intro heq
    rw [heq, hx] at hbit
    exact Bool.noConfusion hbit
  exact ⟨hne _ (by decide), hne _ (by decide)⟩

theorem linkReq_mode (q : CreateReq) : (linkReq q).imode.getLsbD 13 = true := by
  have hlink : (LINKMODE ||| q.mode).getLsbD 13 = true := by
    rw [BitVec.getLsbD_or]
    have : LINKMODE.getLsbD 13 = true := by decide
    rw [this, Bool.true_or]
  have hmode : (createMode (LINKMODE ||| q.mode)).getLsbD 13 = true := by
    unfold createMode
    split
    · rw [BitVec.getLsbD_or, hlink, Bool.true_or]
    · exact hlink
  show (stripSgid q.member (createMode (LINKMODE ||| q.mode))).getLsbD 13 = true
  unfold stripSgid
  split
  · rw [BitVec.getLsbD_and, hmode]
    decide
  · exact hmode

/-- The inode that `ext2_makeinode` makes for a link: it is empty, and has one name. -/
theorem createFile_link {q : CreateReq} {past : Past} {file : FullInode}
    (h : createFile fs hasXtime async (linkReq q) past = some file) :
    file.core.i_size = 0 ∧ file.core.i_nlink = 1 ∧ file.core.i_mode.getLsbD 13 = true := by
  unfold createFile at h
  dsimp only at h
  rw [if_neg (show ¬(linkReq q).directory = true from Bool.false_ne_true), Option.some.injEq] at h
  subst h
  have hsame := update_contents ⟨fs, hasXtime, async,
    (newInode fs hasXtime (linkReq q) past).side.v_type.special⟩ ((linkReq q).directory || !async)
    (linkReq q).now' ⟨(newInode fs hasXtime (linkReq q) past).core, past.slot,
      (newInode fs hasXtime (linkReq q) past).core⟩
  exact ⟨hsame.size, hsame.nlink, hsame.mode ▸ linkReq_mode q⟩

/-! ### Writing the inode out and reading it back -/

variable (fs hasXtime) in
/-- The fields of a link that is read come from the image as they are. -/
theorem vgetFill_contents (rand : BitVec 32) {ei : Ext2fsDinode} (hlinked : ei.e2di_nlink ≠ 0)
    (hmode : ei.e2di_mode.getLsbD 13 = true) :
    SameContents (ext2Ei2i fs hasXtime ei CoreInode.zero) (vgetFill fs hasXtime rand ei) ∧
      (ext2Ei2i fs hasXtime ei CoreInode.zero).i_size = ei.e2di_size.setWidth 64 := by
  obtain ⟨hreg, hdir⟩ := not_reg_of_link hmode
  have himode : (ext2Ei2i fs hasXtime ei CoreInode.zero).i_mode = ei.e2di_mode := if_pos hlinked
  have hclear : clearUnused fs (ext2Ei2i fs hasXtime ei CoreInode.zero) =
      ext2Ei2i fs hasXtime ei CoreInode.zero := by
    unfold clearUnused
    rw [himode, hreg, hdir]
    exact if_neg fun h => h.2.elim Bool.false_ne_true Bool.false_ne_true
  refine ⟨?_, ?_⟩
  · unfold vgetFill
    rw [hclear]
    unfold defaultGen
    split <;> exact ⟨rfl, rfl, rfl, rfl, rfl⟩
  · unfold ext2Ei2i
    simp only [if_pos hlinked, hreg, Bool.false_eq_true, if_false]

variable (hasXtime async waitfor now) in
/-- An inode that is marked as changed is what `ext2_update` writes, on a mount for writing. -/
theorem update_writes_changed {ip : CoreInode} (ei : Ext2fsDinode) (hrw : fs.ronly = false)
    (hchanged : ip.i_flag &&& IN_TIMES ≠ 0) :
    (InCore.ext2Update ⟨fs, hasXtime, async, false⟩ waitfor now .ok ⟨ip, ei, ip⟩).2.disk =
      ext2I2ei hasXtime (ip.toWrite ⟨fs, hasXtime, async, false⟩ now) ei := by
  obtain ⟨v, hv⟩ : ∃ v : VnodeEnv, v = ⟨fs, hasXtime, async, false⟩ := ⟨_, rfl⟩
  rw [← hv]
  -- the time flags ask for a write
  have hmod : (ext2Itimes v now ip).i_flag &&& IN_MODIFIED ≠ 0 := by
    unfold ext2Itimes
    rw [if_neg hchanged, stamped_flag, hv, CoreInode.mark_flag, BitVec.and_assoc]
    show (ip.i_flag ||| IN_MODIFIED) &&& (~~~IN_TIMES &&& IN_MODIFIED) ≠ 0
    rw [show ~~~IN_TIMES &&& IN_MODIFIED = IN_MODIFIED by decide, BitVec.and_or_distrib_right]
    intro h0
    exact absurd (BitVec.or_eq_zero_iff.1 h0).2 (by decide)
  have hgo : ¬UpdateSkips v waitfor now ip := by
    rintro (⟨h, -⟩ | h)
    · exact hmod h
    · rw [hv] at h
      exact Bool.false_ne_true (hrw.symm.trans h)
  rcases update_cases v waitfor now .ok ⟨ip, ei, ip⟩ with
    ⟨hskip, -⟩ | ⟨-, ⟨e, h, -⟩ | ⟨e, h, -⟩ | ⟨-, h⟩⟩
  · exact absurd hskip hgo
  · cases h
  · cases h
  · rw [h, hv]

variable (fs hasXtime async now) in
/-- **A link after its inode was written out and read back** holds what it held before. -/
theorem reread_contents {f : MetaFile} (ei : Ext2fsDinode) (rand : BitVec 32)
    (hlinked : f.ip.i_nlink ≠ 0) (hmode : f.ip.i_mode.getLsbD 13 = true)
    (hsize : f.ip.i_size.toNat < 2 ^ 32) :
    SameContents f.ip (f.reread fs hasXtime async ei now rand).ip := by
  obtain ⟨v, hv⟩ : ∃ v : VnodeEnv, v = ⟨fs, hasXtime, async, false⟩ := ⟨_, rfl⟩
  have htimes := itimes_contents v now f.ip
  have hback : (f.reread fs hasXtime async ei now rand).ip =
      vgetFill fs hasXtime rand (ext2I2ei hasXtime (f.ip.toWrite v now) ei) := by
    rw [hv]
    rfl
  have hnl : (ext2I2ei hasXtime (f.ip.toWrite v now) ei).e2di_nlink = f.ip.i_nlink := htimes.nlink
  have hmd : (ext2I2ei hasXtime (f.ip.toWrite v now) ei).e2di_mode = f.ip.i_mode := htimes.mode
  obtain ⟨hsame, hsz⟩ := vgetFill_contents fs hasXtime rand (hnl ▸ hlinked) (hmd ▸ hmode)
  rw [hback]
  refine ⟨?_, ?_, ?_, ?_, ?_⟩
  · rw [hsame.size, hsz]
    show ((ext2Itimes v now f.ip).i_size.setWidth 32).setWidth 64 = f.ip.i_size
    rw [htimes.size]
    exact setWidth_setWidth_of_lt hsize
  · rw [hsame.mode]
    show (if (ext2I2ei hasXtime (f.ip.toWrite v now) ei).e2di_nlink ≠ 0 then
      (ext2I2ei hasXtime (f.ip.toWrite v now) ei).e2di_mode else 0) = _
    rw [hnl, hmd, if_pos hlinked]
  · rw [hsame.nlink]
    exact hnl
  · rw [hsame.db]
    funext i
    exact (dif_pos i.isLt).trans (congrFun htimes.db i)
  · rw [hsame.ib]
    funext i
    show (if h : (i.natAdd 12 : Fin 15).val < 12 then _ else
      (ext2Itimes v now f.ip).i_ib ⟨(i.natAdd 12 : Fin 15) - 12, _⟩) = f.ip.i_ib i
    rw [dif_neg (by simp), htimes.ib]
    congr 1
    ext
    simp

end


/-! ### Writing and reading the target -/

/-- `ext2_balloc` changes no byte of another block. -/
theorem MetaFile.balloc_data {fs : MExt2fs} {lbn i : ℕ} {clrbuf : Bool} {c : BallocChange} {f : MetaFile}
    (h : fs.lblkno i ≠ lbn) : (f.balloc fs lbn clrbuf c).data i = f.data i := by
  unfold MetaFile.balloc
  cases c.fresh with
  | none => rfl
  | some junk => exact if_neg h

/-- What a write of `n` bytes of `src` at `off` leaves. -/
structure Written (f f' : MetaFile) (src : Mem) (done off n : ℕ) : Prop where
  before : ∀ i < off, f'.data i = f.data i
  bytes : ∀ i < n, f'.data (off + i) = src (done + i)
  size : f'.ip.i_size.toNat = max f.ip.i_size.toNat (off + n)
  mode : f'.ip.i_mode = f.ip.i_mode
  nlink : f'.ip.i_nlink = f.ip.i_nlink

section

variable {fs : MExt2fs} {env : MetaWriteEnv} {sync : Bool} {src : Mem}

variable (sync src) in
/-- **The loop of a write**, from the beginning of a block on.  It returns, and where it returns no error
the bytes are written. -/
theorem metaWriteLoop_spec (done : ℕ) {fuel off resid : ℕ} {f : MetaFile}
    (hfuel : resid < fuel) (hstart : 0 < resid → fs.blkoff off = 0) (hoff : off ≤ f.ip.i_size.toNat)
    (hlt : off + resid < 2 ^ 64) :
    ∃ r, metaWriteLoop fs env sync src fuel off done resid f = some r ∧
      (r.error = none → r.resid = 0 ∧ Written f r.file src done off resid) := by
  induction fuel generalizing off done resid f with
  | zero => omega
  | succ fuel ih =>
    unfold metaWriteLoop
    by_cases hgo : 0 < resid
    · rw [if_pos hgo]
      dsimp only
      have hblk := hstart hgo
      have hbs := fs.bsize_pos
      rw [hblk, Nat.sub_zero]
      generalize hx : min fs.bsize resid = x
      generalize (!decide (x = fs.bsize ∧ 0 = 0)) = clrbuf
      cases env.balloc (fs.lblkno off) f with
      | error e => exact ⟨_, rfl, fun h => absurd h (by simp)⟩
      | ok c =>
        dsimp only
        generalize hf₁ : f.balloc fs (fs.lblkno off) clrbuf c = f₁
        have hsize₁ : f₁.ip.i_size = f.ip.i_size := by rw [← hf₁]; rfl
        cases env.uiomove off with
        | some e => exact ⟨_, rfl, fun h => absurd h (by simp)⟩
        | none =>
          dsimp only
          generalize hsz : (if f₁.ip.i_size.toNat < off + x then BitVec.ofNat 64 (off + x)
            else f₁.ip.i_size) = size
          have hsize : size.toNat = max f.ip.i_size.toNat (off + x) := by
            rw [← hsz, hsize₁]
            split
            · rw [BitVec.toNat_ofNat, Nat.mod_eq_of_lt (by omega)]
              omega
            · omega
          generalize hf₂ : (⟨{ f₁.ip with i_size := size }, paste f₁.data off src done x⟩ : MetaFile) = f₂
          -- the bytes in front of the block are those of other blocks
          have hone : Written f f₂ src done off x := by
            subst hf₂
            have hmode : f₁.ip.i_mode = f.ip.i_mode := by rw [← hf₁]; rfl
            have hnlink : f₁.ip.i_nlink = f.ip.i_nlink := by rw [← hf₁]; rfl
            refine ⟨fun i hi => ?_, fun i hi => paste_add hi, hsize, hmode, hnlink⟩
            show paste f₁.data off src done x i = f.data i
            rw [paste_of_lt hi, ← hf₁]
            refine MetaFile.balloc_data fun heq => ?_
            exact (Nat.div_lt_div_of_lt_of_dvd (Nat.dvd_of_mod_eq_zero hblk) hi).ne heq
          cases (if sync then env.bwrite (fs.lblkno off) else none) with
          | some e => exact ⟨_, rfl, fun h => absurd h (by simp)⟩
          | none =>
            dsimp only
            have hstart' : 0 < resid - x → fs.blkoff (off + x) = 0 := by
              intro hmore
              have hfull : x = fs.bsize := by omega
              unfold MExt2fs.blkoff at hblk ⊢
              rw [hfull, Nat.add_mod_right, hblk]
            have hoff' : off + x ≤ f₂.ip.i_size.toNat := by
              rw [hone.size]
              exact le_max_right _ _
            obtain ⟨r, hr, hspec⟩ := ih (done + x) (by omega) hstart' hoff' (by omega)
            refine ⟨r, hr, fun hnone => ?_⟩
            obtain ⟨hres, hrest⟩ := hspec hnone
            refine ⟨hres, fun i hi => ?_, fun i hi => ?_, ?_, ?_, ?_⟩
            · rw [hrest.before i (by omega), hone.before i hi]
            · by_cases hix : i < x
              · rw [hrest.before (off + i) (by omega), hone.bytes i hix]
              · have hrem := hrest.bytes (i - x) (by omega)
                rw [show off + x + (i - x) = off + i by omega,
                  show done + x + (i - x) = done + i by omega] at hrem
                exact hrem
            · rw [hrest.size, hone.size]
              omega
            · rw [hrest.mode, hone.mode]
            · rw [hrest.nlink, hone.nlink]
    · have hzero : resid = 0 := by omega
      subst hzero
      rw [if_neg hgo]
      have hsize : f.ip.i_size.toNat = max f.ip.i_size.toNat (off + 0) := by omega
      exact ⟨_, rfl, fun _ => ⟨rfl, fun i _ => rfl, fun i hi => absurd hi (Nat.not_lt_zero i), hsize,
        rfl, rfl⟩⟩

/-- **A write at the start of a file** that succeeds. -/
theorem metaWrite_spec {n : ℕ} {f : MetaFile} (hn : n < 2 ^ 64) :
    ∃ r, metaWrite fs env sync src 0 n f = some r ∧
      (r.error = none → r.resid = 0 ∧ Written f r.file src 0 0 n ∧
        r.file.ip.i_flag &&& IN_TIMES ≠ 0) := by
  obtain ⟨r, hr, hspec⟩ := metaWriteLoop_spec sync src 0 (Nat.lt_succ_self n)
    (fun _ => Nat.zero_mod _) (Nat.zero_le f.ip.i_size.toNat) (by omega)
  unfold metaWrite
  rw [hr]
  refine ⟨_, rfl, fun hnone => ?_⟩
  obtain ⟨hres, hw⟩ := hspec hnone
  refine ⟨hres, ⟨hw.before, hw.bytes, hw.size, hw.mode, hw.nlink⟩, fun h0 => ?_⟩
  have hflag : (r.file.ip.i_flag ||| (IN_CHANGE ||| IN_UPDATE)) &&& IN_TIMES = 0 := h0
  rw [BitVec.and_or_distrib_right] at hflag
  exact absurd (BitVec.or_eq_zero_iff.1 hflag).2 (by decide)

end

/-! ### What is read back -/

section

variable {fs : MExt2fs} {hasXtime async : Bool} {v : VnRdwr} {wenv : MetaWriteEnv} {q : CreateReq}
  {past : Past} {fails : Option Errno} {data : Mem} {target : List UInt8} {f : MetaFile}

/-- A link that holds a target: over its pointers if the target is short, and in its data else. -/
structure HoldsTarget (target : List UInt8) (f : MetaFile) : Prop where
  size : f.ip.i_size.toNat = target.length
  short : target.length < 60 → ∀ i < target.length, f.ip.shortlink i = ofList target i
  long : ¬target.length < 60 → ∀ i < target.length, f.data i = ofList target i

/-- **What `ext2_symlink` makes** when it succeeds. -/
theorem symlink_holds (hv : v.Documented) (hlen : target.length < 2 ^ 31)
    (h : ext2Symlink fs hasXtime async v wenv q past fails data target = .ok f) :
    HoldsTarget target f ∧ f.ip.i_flag &&& IN_TIMES ≠ 0 ∧ f.ip.i_nlink ≠ 0 ∧
      f.ip.i_mode.getLsbD 13 = true := by
  unfold ext2Symlink at h
  cases hmade : createFile fs hasXtime async (linkReq q) past with
  | none => cases fails <;> rw [hmade] at h <;> cases h
  | some file =>
    cases fails with
    | some e => cases h
    | none =>
      rw [hmade] at h
      obtain ⟨hsize, hnlink, hmode⟩ := createFile_link hmade
      have hone : file.core.i_nlink ≠ 0 := by
        rw [hnlink]
        decide
      dsimp only at h
      by_cases hshort : target.length < 60
      · rw [if_pos (show target.length < EXT2_MAXSYMLINKLEN from hshort)] at h
        cases h
        refine ⟨⟨?_, fun _ i hi => ?_, fun hn => absurd hshort hn⟩, fun h0 => ?_, hone, hmode⟩
        · show (BitVec.ofNat 64 target.length).toNat = target.length
          rw [BitVec.toNat_ofNat, Nat.mod_eq_of_lt (by omega)]
        · show (file.core.setShortlink _).shortlink i = _
          have hpaste : paste file.core.shortlink 0 (ofList target) 0 target.length (0 + i) =
              ofList target (0 + i) := paste_add hi
          rw [shortlink_setShortlink _ _ (by omega)]
          rwa [Nat.zero_add] at hpaste
        · have hflag : (file.core.i_flag ||| (IN_CHANGE ||| IN_UPDATE)) &&& IN_TIMES = 0 := h0
          rw [BitVec.and_or_distrib_right] at hflag
          exact absurd (BitVec.or_eq_zero_iff.1 hflag).2 (by decide)
      · rw [if_neg (show ¬target.length < EXT2_MAXSYMLINKLEN from hshort)] at h
        obtain ⟨r, hr, hspec⟩ := metaWrite_spec (f := ⟨file.core, data⟩)
          (show target.length < 2 ^ 64 by omega)
        rw [hv.write _ _ _ _ r hr] at h
        cases herr : r.error with
        | some e =>
          rw [herr] at h
          cases h
        | none =>
          obtain ⟨hres, hw, hflag⟩ := hspec herr
          rw [herr, hres] at h
          cases h
          refine ⟨⟨?_, fun hs => absurd hs hshort, fun _ i hi => ?_⟩, hflag, ?_, ?_⟩
          · rw [hw.size]
            show max file.core.i_size.toNat _ = _
            rw [hsize]
            simp
          · have hbyte := hw.bytes i hi
            rwa [Nat.zero_add] at hbyte
          · rw [hw.nlink]
            exact hone
          · rw [hw.mode]
            exact hmode

/-- A new link waits to be written: the next `ext2_update` puts the image of `MetaFile.reread` in place. -/
theorem symlink_written (hv : v.Documented) (hlen : target.length < 2 ^ 31) (hrw : fs.ronly = false)
    (h : ext2Symlink fs hasXtime async v wenv q past fails data target = .ok f) (waitfor : Bool)
    (now : Timespec) (ei : Ext2fsDinode) :
    (InCore.ext2Update ⟨fs, hasXtime, async, false⟩ waitfor now .ok ⟨f.ip, ei, f.ip⟩).2.disk =
      ext2I2ei hasXtime (f.ip.toWrite ⟨fs, hasXtime, async, false⟩ now) ei := by
  obtain ⟨-, hchanged, -, -⟩ := symlink_holds hv hlen h
  exact update_writes_changed hasXtime async waitfor now ei hrw hchanged

/-- Writing the inode out and reading it back keeps the target. -/
theorem HoldsTarget.reread (h : HoldsTarget target f) (hlen : target.length < 2 ^ 31)
    (hlinked : f.ip.i_nlink ≠ 0) (hmode : f.ip.i_mode.getLsbD 13 = true) (ei : Ext2fsDinode)
    (now : Timespec) (rand : BitVec 32) :
    HoldsTarget target (f.reread fs hasXtime async ei now rand) := by
  have hsize : f.ip.i_size.toNat < 2 ^ 32 := by
    rw [h.size]
    omega
  have hsame := reread_contents fs hasXtime async now ei rand hlinked hmode hsize
  refine ⟨?_, fun hs i hi => ?_, h.long⟩
  · rw [hsame.size]
    exact h.size
  · rw [hsame.shortlink]
    exact h.short hs i hi

variable {env : MetaEnv} {u : Uio} {mem : Mem}

theorem HoldsTarget.isize (h : HoldsTarget target f) (hlen : target.length < 2 ^ 31) :
    i32 f.ip.i_size.toNat = target.length := by
  rw [h.size]
  exact i32_of_lt (by omega) (by omega)

/-- **A short target** is delivered through the uio. -/
theorem readlink_short (h : HoldsTarget target f) (hshort : target.length < 60)
    (hroom : target.length ≤ u.resid) : ReadsTarget fs v env none target f u mem := by
  have hisize := h.isize (by omega)
  have hrun : ext2Readlink fs v env none f u mem =
      (none, ⟨u.base + target.length, u.offset + target.length, u.resid - target.length⟩,
        paste mem u.base (ofList target) 0 target.length) := by
    unfold ext2Readlink
    rw [hisize]
    dsimp only
    rw [if_pos (show (target.length : ℤ) < (EXT2_MAXSYMLINKLEN : ℕ) by
      show (target.length : ℤ) < (60 : ℕ); omega), Int.toNat_natCast]
    unfold uiomove
    dsimp only
    rw [Nat.min_eq_left hroom, paste_congr (h.short hshort)]
  refine ⟨by rw [hrun], by rw [hrun], by rw [hrun], ?_⟩
  rw [hrun]
  show u.resid - target.length + target.length = u.resid
  omega

/-- A long target is read through a uio of `vn_rdwr`; the caller's own is not passed on. -/
theorem readlink_long_run (h : HoldsTarget target f) (hlong : ¬target.length < 60)
    (hlen : target.length < 2 ^ 31) :
    ext2Readlink fs v env none f u mem =
      let r := v.read (fun len f => metaRead fs env f.data f.ip.i_size.toNat 0 len) u.base target.length
        f mem
      (r.1, u, r.2) := by
  unfold ext2Readlink
  rw [h.isize hlen]
  dsimp only
  rw [if_neg (show ¬(target.length : ℤ) < (EXT2_MAXSYMLINKLEN : ℕ) by
    show ¬(target.length : ℤ) < (60 : ℕ); omega), Int.toNat_natCast]

/-- **A long target** is delivered to the place of the uio, which does not move. -/
theorem readlink_long (hv : v.Documented) (henv : env.Works) (h : HoldsTarget target f)
    (hlong : ¬target.length < 60) (hlen : target.length < 2 ^ 31) :
    ext2Readlink fs v env none f u mem =
      (none, u, paste mem u.base (ofList target) 0 target.length) := by
  have hsize : 0 + target.length ≤ f.ip.i_size.toNat := by
    rw [h.size]
    omega
  have hread : metaRead fs env f.data f.ip.i_size.toNat 0 target.length = _ :=
    metaRead_within henv hsize
  rw [readlink_long_run h hlong hlen, hv.read _ _ _ _ _ _ hread]
  dsimp only
  rw [slice_length]
  refine congrArg (fun m => (none, u, m)) (paste_congr fun i hi => ?_)
  have hbyte : ofList (slice f.data 0 target.length) i = f.data i := by
    unfold ofList slice
    simp [List.getD_eq_getElem?_getD, hi]
  rw [hbyte, h.long hlong i hi]

end

/-- `MAXPATHLEN` -/
def MAXPATHLEN : ℕ := 1024

/-- **When `ext2_readlink` gives back what `ext2_symlink` was given**, before and after the inode was
written out and read back. -/
theorem symlink_readlink_iff (fs : MExt2fs) (hasXtime async : Bool) (v : VnRdwr) (wenv : MetaWriteEnv)
    (env : MetaEnv) (q : CreateReq) (past : Past) (fails : Option Errno) (data : Mem)
    (target : List UInt8) (f : MetaFile) (u : Uio) (mem : Mem) (hv : v.Documented)
    (hpos : 1 ≤ target.length)
    (hmax : target.length ≤ MAXPATHLEN - 1) (hroom : target.length ≤ u.resid)
    (h : ext2Symlink fs hasXtime async v wenv q past fails data target = .ok f) :
    (ReadsTarget fs v env none target f u mem ∧
        ∀ ei now rand,
          ReadsTarget fs v env none target (f.reread fs hasXtime async ei now rand) u mem) ↔
      target.length < 60 := by
  have hlen : target.length < 2 ^ 31 := by
    unfold MAXPATHLEN at hmax
    omega
  obtain ⟨hholds, -, hlinked, hmode⟩ := symlink_holds hv hlen h
  constructor
  · rintro ⟨hreads, -⟩
    by_contra hlong
    have hresid := hreads.resid
    rw [readlink_long_run hholds hlong hlen] at hresid
    dsimp only at hresid
    omega
  · intro hshort
    exact ⟨readlink_short hholds hshort hroom, fun ei now rand =>
      readlink_short (hholds.reread hlen hlinked hmode ei now rand) hshort hroom⟩


/-- A `vn_rdwr` that does what is documented. -/
def plainRdwr : VnRdwr where
  write vnop src len f :=
    match vnop src len f with
    | some r => (shortError r.error r.resid, r.file)
    | none => (some .eio, f)
  read vnop base len f mem :=
    match vnop len f with
    | some r => (shortError r.error r.resid, paste mem base (ofList r.data) 0 r.data.length)
    | none => (some .eio, mem)

theorem plainRdwr_documented : plainRdwr.Documented where
  write vnop src len f r h := by simp only [plainRdwr, h]
  read vnop base len f mem r h := by simp only [plainRdwr, h]

/-- New blocks for everything, and writes without errors. -/
def plainWrite : MetaWriteEnv :=
  ⟨fun _ f => .ok ⟨f.ip.i_db, f.ip.i_ib, 8, f.ip.i_flag, some fun _ => 255⟩, fun _ => none,
    fun _ => none⟩

/-- A new link in a slot that was used before. -/
def makeLink (target : List UInt8) : Except Errno MetaFile :=
  ext2Symlink volume4k false false plainRdwr plainWrite { plainReq with mode := 0x01ed }
    ⟨plainDinode, none⟩ none (fun _ => 0) target

/-- A target of 59 bytes, the longest that is kept in the inode. -/
def shortTarget : List UInt8 := List.replicate 59 97

theorem readlink_fiftyNineBytes :
    ∃ f, makeLink shortTarget = .ok f ∧
      (ReadsTarget volume4k plainRdwr ⟨fun _ => none, fun _ => none⟩ none shortTarget f ⟨4096, 0, 1024⟩
          (fun _ => 0) ∧
        ∀ ei now rand, ReadsTarget volume4k plainRdwr ⟨fun _ => none, fun _ => none⟩ none shortTarget
          (f.reread volume4k false false ei now rand) ⟨4096, 0, 1024⟩ fun _ => 0) :=
  ⟨_, rfl, (symlink_readlink_iff volume4k false false plainRdwr plainWrite
    ⟨fun _ => none, fun _ => none⟩ { plainReq with mode := 0x01ed } ⟨plainDinode, none⟩ none (fun _ => 0)
    shortTarget _ ⟨4096, 0, 1024⟩ (fun _ => 0) plainRdwr_documented (by decide) (by decide)
    (by decide) rfl).2 (by decide)⟩

/-- A link of 60 bytes: 1024 bytes of room are left of 1024. -/
theorem readlink_sixtyBytes :
    ∃ f, makeLink (List.replicate 60 97) = .ok f ∧
      (ext2Readlink volume4k plainRdwr ⟨fun _ => none, fun _ => none⟩ none f ⟨4096, 0, 1024⟩
        (fun _ => 0)).2.1 = ⟨4096, 0, 1024⟩ ∧
      ¬ReadsTarget volume4k plainRdwr ⟨fun _ => none, fun _ => none⟩ none (List.replicate 60 97) f
        ⟨4096, 0, 1024⟩ fun _ => 0 := by
  obtain ⟨f, hf⟩ : ∃ f, makeLink (List.replicate 60 97) = .ok f := ⟨_, rfl⟩
  obtain ⟨hholds, -⟩ := symlink_holds plainRdwr_documented (by decide) hf
  have hrun := @readlink_long_run volume4k plainRdwr _ _ ⟨fun _ => none, fun _ => none⟩ ⟨4096, 0, 1024⟩
    (fun _ => 0) hholds (by decide) (by decide)
  refine ⟨f, hf, by rw [hrun], fun hright => ?_⟩
  have hresid := hright.resid
  rw [hrun, List.length_replicate] at hresid
  dsimp only at hresid
  omega

end Ext2fs
