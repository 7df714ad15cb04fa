import Ext2fs.Basic
import Mathlib.Tactic.Ring

/-!
# How the checker reads inodes

`ginode` reads one inode at a time through a buffer of the pool, `getnextinode` all of them in order
through a buffer of its own.  Both hand out a pointer; here the pointer is the place on the device that
its bytes were read from.

* `ginode` indexes the block as an array of `struct ext2fs_dinode`, whose size is neither of the two
  sizes an inode has on disk;
* `getnextinode` steps by the size on disk, through chunks that never reach into another group;
* `ginode_iff` — the inodes that `ginode` finds in their slots;
* `getnextinode_spec`, `scanned_iff` — what the scan points at;
* **`readers_iff`** — the inodes that both readers find in their slots: on a volume of ordinary shape
  the first ones of the blocks.
-/

namespace Ext2fs.Fsck

/-- `sizeof(struct ext2fs_dinode)` -/
def DINODE_STRUCT : ℕ := 156

/-- `DEV_BSIZE` -/
def DEV_BSIZE : ℕ := 512

/-- `INOBUFSIZE` -/
def INOBUFSIZE : ℕ := 128 * 1024

/-- `EXT2_FIRSTINO`, and `EXT2_ROOTINO` -/
def FIRSTINO : ℕ := 11
def ROOTINO : ℕ := 2

/-- What the checker knows of the shape of a volume it has accepted. -/
structure Volume where
  /-- `e2fs_log_bsize` -/
  logBsize : ℕ
  /-- `EXT2_DINODE_SIZE` -/
  isize : ℕ
  /-- `e2fs_ipg` -/
  ipg : ℕ
  /-- `e2fs_gcount` -/
  gcount : ℕ
  /-- `ext2bgd_i_tables`, by group -/
  tables : ℕ → ℕ
  logBsize_le : logBsize ≤ 2
  isize_cases : isize = 128 ∨ isize = 256
  ipg_pos : 0 < ipg

namespace Volume

variable (v : Volume)

/-- `e2fs_bsize` -/
def bsize : ℕ := 1024 * 2 ^ v.logBsize

/-- `e2fs_ipb` -/
def ipb : ℕ := v.bsize / v.isize

/-- `maxino`, computed in 32 bits. -/
def maxino : ℕ := u32 (v.gcount * v.ipg : ℕ)

/-- `ino_to_cg` -/
def inoToCg (i : ℕ) : ℕ := (i - 1) / v.ipg

/-- `fsck_ino_to_fsba`, which is kept in a `daddr32_t`. -/
def inoToFsba (i : ℕ) : ℤ := i32 (v.tables (v.inoToCg i) + (i - 1) % v.ipg / v.ipb : ℕ)

/-- `fsbtodb`, kept in a `daddr32_t`. -/
def fsbtodb (b : ℤ) : ℤ := i32 (b * 2 ^ (v.logBsize + 1))

/-- Where on the device the slot of an inode starts. -/
def slotAddr (i : ℕ) : ℕ := v.tables (v.inoToCg i) * v.bsize + (i - 1) % v.ipg * v.isize

/-- Where on the device the block is read that an inode is looked for in. -/
def blockAddr (i : ℕ) : ℤ := DEV_BSIZE * v.fsbtodb (v.inoToFsba i)

/-- The numbers `ginode` takes. -/
def Valid (i : ℕ) : Prop := ¬((i < FIRSTINO ∧ i ≠ ROOTINO) ∨ v.maxino < i)

instance (i : ℕ) : Decidable (v.Valid i) := inferInstanceAs (Decidable (¬_))

end Volume

/-! ### One inode at a time -/

/-- `startinum`, and where the block in `pbp` was read. -/
structure InoBuf where
  startinum : ℕ
  addr : ℤ
  deriving DecidableEq, Repr

/-- `resetinodebuf` forgets the block. -/
def InoBuf.reset : InoBuf := ⟨0, 0⟩

section

variable (v : Volume)

/-- The block of an inode is in `pbp`. -/
def InoBuf.loaded (i : ℕ) : InoBuf := ⟨(i - 1) / v.ipb * v.ipb + 1, v.blockAddr i⟩

@[simp] theorem loaded_addr (i : ℕ) : (InoBuf.loaded v i).addr = v.blockAddr i := rfl

/-- `ginode`; a number out of range ends the program. -/
def ginode (i : ℕ) (s : InoBuf) : Option (ℤ × InoBuf) :=
  if (i < FIRSTINO ∧ i ≠ ROOTINO) ∨ v.maxino < i then none
  else
    let s := if s.startinum = 0 ∨ i < s.startinum ∨ s.startinum + v.ipb ≤ i then InoBuf.loaded v i
      else s
    some (s.addr + ((i - 1) % v.ipb * DINODE_STRUCT : ℕ), s)

/-- Several calls of `ginode`. -/
def ginodes : List ℕ → InoBuf → Option InoBuf
  | [], s => some s
  | i :: is, s => (ginode v i s).bind fun r => ginodes is r.2

/-- What `ginode` returns after other calls. -/
def ginodeAfter (is : List ℕ) (i : ℕ) : Option ℤ :=
  (ginodes v is .reset).bind fun s => (ginode v i s).map Prod.fst

/-! ### All inodes in order -/

/-- The variables of the scan. -/
structure Scanner where
  /-- `nextino`, `lastinum`, `readcnt` -/
  nextino : ℕ
  lastinum : ℕ
  readcnt : ℕ
  /-- where the buffer was read from, and `bp` in it -/
  addr : ℤ
  bp : ℕ
  deriving DecidableEq, Repr

/-- `blkroundup` -/
def Volume.blkroundup (n : ℕ) : ℕ := (n + (v.bsize - 1)) / v.bsize * v.bsize

/-- `inobufsize` -/
def Volume.inobufsize : ℕ := v.blkroundup INOBUFSIZE

/-- `fullcnt` -/
def Volume.fullcnt : ℕ := v.inobufsize / v.isize

/-- `readpercg`, and `partialcnt` -/
def Volume.readpercg : ℕ :=
  if v.ipg % v.fullcnt ≠ 0 then v.ipg / v.fullcnt + 1 else v.ipg / v.fullcnt

def Volume.partialcnt : ℕ := if v.ipg % v.fullcnt ≠ 0 then v.ipg % v.fullcnt else v.fullcnt

/-- The next chunk is read, when the scan has come to its first inode. -/
def Scanner.fetch (i : ℕ) (s : Scanner) : Scanner :=
  if s.lastinum ≤ i then
    { s with
      readcnt := s.readcnt + 1
      addr := v.blockAddr s.lastinum
      lastinum := s.lastinum +
        if (s.readcnt + 1) % v.readpercg = 0 then v.partialcnt else v.fullcnt
      bp := 0 }
  else s

/-- `getnextinode` -/
def getnextinode (i : ℕ) (s : Scanner) : Option (ℤ × Scanner) :=
  if i ≠ s.nextino ∨ v.maxino < i then none
  else
    let s := ({ s with nextino := s.nextino + 1 } : Scanner).fetch v i
    some (s.addr + s.bp, { s with bp := s.bp + v.isize })

/-- The scan up to an inode, from `resetinodebuf` on. -/
def scanTo : ℕ → Option Scanner
  | 0 => some ⟨1, 1, 0, 0, 0⟩
  | n + 1 => (scanTo n).bind fun s => (getnextinode v (n + 1) s).map Prod.snd

/-- What `getnextinode` returns for an inode. -/
def scanned (i : ℕ) : Option ℤ :=
  (scanTo v (i - 1)).bind fun s => (getnextinode v i s).map Prod.fst

end

/-! ### Numbers of a volume -/

section

variable (v : Volume) {i j : ℕ}

/-- The three block sizes, and the two sizes of an inode. -/
theorem Volume.cases :
    (v.bsize = 1024 ∧ 2 ^ (v.logBsize + 1) = 2 ∨ v.bsize = 2048 ∧ 2 ^ (v.logBsize + 1) = 4 ∨
      v.bsize = 4096 ∧ 2 ^ (v.logBsize + 1) = 8) ∧ (v.isize = 128 ∨ v.isize = 256) := by
  refine ⟨?_, v.isize_cases⟩
  have hlog : v.logBsize = 0 ∨ v.logBsize = 1 ∨ v.logBsize = 2 := by
    have h := v.logBsize_le
    omega
  unfold Volume.bsize
  rcases hlog with h | h | h <;> rw [h] <;> decide

theorem Volume.bsize_eq : v.bsize = v.ipb * v.isize := by
  obtain ⟨hB, hI⟩ := v.cases
  unfold Volume.ipb
  rcases hB with ⟨h, -⟩ | ⟨h, -⟩ | ⟨h, -⟩ <;> rcases hI with h' | h' <;> rw [h, h']

theorem Volume.ipb_pos : 0 < v.ipb := by
  obtain ⟨hB, hI⟩ := v.cases
  unfold Volume.ipb
  rcases hB with ⟨h, -⟩ | ⟨h, -⟩ | ⟨h, -⟩ <;> rcases hI with h' | h' <;> rw [h, h'] <;> decide

/-- A block is looked for on a multiple of its size. -/
theorem Volume.blockAddr_dvd : (v.bsize : ℤ) ∣ v.blockAddr i := by
  obtain ⟨hB, -⟩ := v.cases
  have hpow : ((2 : ℤ) ^ (v.logBsize + 1)) = ((2 ^ (v.logBsize + 1) : ℕ) : ℤ) := by
    push_cast
    rfl
  unfold Volume.blockAddr Volume.fsbtodb DEV_BSIZE
  generalize v.inoToFsba i = b
  rw [hpow]
  unfold i32
  rcases hB with ⟨h, h'⟩ | ⟨h, h'⟩ | ⟨h, h'⟩ <;> rw [h, h'] <;> split <;> omega

theorem Volume.inobufsize_eq : v.inobufsize = INOBUFSIZE := by
  obtain ⟨hB, -⟩ := v.cases
  unfold Volume.inobufsize Volume.blkroundup
  rcases hB with ⟨h, -⟩ | ⟨h, -⟩ | ⟨h, -⟩ <;> rw [h] <;> decide

/-- The buffer of the scan holds whole blocks. -/
theorem Volume.fullcnt_eq : v.fullcnt = INOBUFSIZE / v.bsize * v.ipb ∧ 0 < v.fullcnt := by
  obtain ⟨hB, hI⟩ := v.cases
  unfold Volume.fullcnt
  rw [v.inobufsize_eq]
  unfold Volume.ipb
  rcases hB with ⟨h, -⟩ | ⟨h, -⟩ | ⟨h, -⟩ <;> rcases hI with h' | h' <;> rw [h, h'] <;> decide

/-- A pointer into the array of structures is at a slot of the block only at its start. -/
theorem Volume.index_zero {k s : ℕ} {a b : ℤ} (hk : k < v.ipb) (ha : (v.bsize : ℤ) ∣ a)
    (hb : (v.bsize : ℤ) ∣ b) (h : a + (k * DINODE_STRUCT : ℕ) = b + (s * v.isize : ℕ)) :
    k = 0 ∧ s % v.ipb = 0 := by
  obtain ⟨hB, hI⟩ := v.cases
  obtain ⟨p, rfl⟩ := ha
  obtain ⟨q, rfl⟩ := hb
  unfold Volume.ipb at *
  unfold DINODE_STRUCT at h
  rcases hB with ⟨h1, -⟩ | ⟨h1, -⟩ | ⟨h1, -⟩ <;> rcases hI with h2 | h2 <;> rw [h1, h2] at hk h ⊢ <;>
    push_cast at h <;> omega

/-! ### What `ginode` points at -/

theorem ginode_eq (hi : v.Valid i) (s : InoBuf) :
    ginode v i s =
      let s := if s.startinum = 0 ∨ i < s.startinum ∨ s.startinum + v.ipb ≤ i then InoBuf.loaded v i
        else s
      some (s.addr + ((i - 1) % v.ipb * DINODE_STRUCT : ℕ), s) := by
  unfold ginode
  rw [if_neg hi]

/-- After calls of `ginode` the buffer is the one of an inode that was asked for. -/
theorem ginodes_loaded {is : List ℕ} (his : ∀ j ∈ is, v.Valid j) {s : InoBuf}
    (hs : s = .reset ∨ ∃ j, v.Valid j ∧ s = InoBuf.loaded v j) :
    ∃ s', ginodes v is s = some s' ∧ (s' = .reset ∨ ∃ j, v.Valid j ∧ s' = InoBuf.loaded v j) := by
  induction is generalizing s with
  | nil => exact ⟨s, rfl, hs⟩
  | cons i is ih =>
    have hi := his i (List.mem_cons_self ..)
    show ∃ s', (ginode v i s).bind _ = some s' ∧ _
    rw [ginode_eq v hi]
    apply ih fun j hj => his j (List.mem_cons_of_mem _ hj)
    dsimp only
    split
    · exact .inr ⟨i, hi, rfl⟩
    · exact hs

/-- `ginode` points at the slot of an inode whatever came before: the inode is the first one of its
block, and each number that is looked for in that block finds it at the slot. -/
structure Volume.AtSlot (i : ℕ) : Prop where
  index : (i - 1) % v.ipb = 0
  slot : (i - 1) % v.ipg % v.ipb = 0
  block : ∀ j, v.Valid j → (j - 1) / v.ipb = (i - 1) / v.ipb → v.blockAddr j = v.slotAddr i

theorem ginodeAfter_nil (hi : v.Valid i) :
    ginodeAfter v [] i = some (v.blockAddr i + ((i - 1) % v.ipb * DINODE_STRUCT : ℕ)) := by
  show (ginode v i .reset).map Prod.fst = _
  rw [ginode_eq v hi]
  rfl

theorem valid_pos (hi : v.Valid i) : 1 ≤ i := by
  by_contra h
  have hzero : i = 0 := by omega
  subst hzero
  exact hi (.inl ⟨by decide, by decide⟩)

/-- **`ginode` points at the slot of an inode** exactly when the slot is at the start of its block. -/
theorem ginode_iff (hi : v.Valid i) :
    (∀ is, (∀ j ∈ is, v.Valid j) → ginodeAfter v is i = some (v.slotAddr i : ℤ)) ↔ v.AtSlot i := by
  have hpos := v.ipb_pos
  have hslot : (v.slotAddr i : ℤ) = v.tables (v.inoToCg i) * v.bsize +
      ((i - 1) % v.ipg * v.isize : ℕ) := by
    unfold Volume.slotAddr
    push_cast
    ring
  constructor
  · intro h
    have hnil := h [] (by simp)
    rw [ginodeAfter_nil v hi] at hnil
    have hat := Option.some.inj hnil
    rw [hslot] at hat
    obtain ⟨hindex, hmod⟩ := v.index_zero (Nat.mod_lt _ hpos) v.blockAddr_dvd
      (Int.dvd_mul_left _ _) hat
    refine ⟨hindex, hmod, fun j hj hsame => ?_⟩
    -- the block of `j` stays in the buffer when `i` is asked for
    have hone := h [j] (by simpa using hj)
    have hfirst : ginodes v [j] .reset = some (InoBuf.loaded v j) := by
      show (ginode v j .reset).bind _ = _
      rw [ginode_eq v hj]
      rfl
    unfold ginodeAfter at hone
    rw [hfirst] at hone
    have hwin : ¬((InoBuf.loaded v j).startinum = 0 ∨ i < (InoBuf.loaded v j).startinum ∨
        (InoBuf.loaded v j).startinum + v.ipb ≤ i) := by
      have hdiv := Nat.div_add_mod (i - 1) v.ipb
      have hi1 := valid_pos v hi
      have hst : (InoBuf.loaded v j).startinum = i := by
        show (j - 1) / v.ipb * v.ipb + 1 = i
        rw [hsame, Nat.mul_comm]
        omega
      rw [hst]
      omega
    have hkept : ginode v i (InoBuf.loaded v j) =
        some (v.blockAddr j + ((i - 1) % v.ipb * DINODE_STRUCT : ℕ), InoBuf.loaded v j) := by
      rw [ginode_eq v hi]
      dsimp only
      rw [if_neg hwin]
      rfl
    rw [Option.bind_some, hkept, hindex] at hone
    have haddr := Option.some.inj hone
    simpa using haddr
  · intro h is his
    obtain ⟨s, hs, hloaded⟩ := ginodes_loaded v his (.inl rfl)
    unfold ginodeAfter
    rw [hs, Option.bind_some, ginode_eq v hi]
    dsimp only
    rw [h.index]
    split
    next => simpa using h.block i hi rfl
    next hwin =>
      rcases hloaded with rfl | ⟨j, hj, rfl⟩
      · exact absurd (.inl rfl) hwin
      · have hsame : (j - 1) / v.ipb = (i - 1) / v.ipb := by
          replace hwin : ¬((j - 1) / v.ipb * v.ipb + 1 = 0 ∨ i < (j - 1) / v.ipb * v.ipb + 1 ∨
            (j - 1) / v.ipb * v.ipb + 1 + v.ipb ≤ i) := hwin
          symm
          rw [Nat.div_eq_iff hpos]
          omega
        simpa using h.block j hj hsame

/-! ### What the scan points at -/

/-- The number of inodes before the chunk `r` of the scan. -/
def Volume.chunk (r : ℕ) : ℕ := r / v.readpercg * v.ipg + r % v.readpercg * v.fullcnt

/-- The chunks of a group: full ones and a last one. -/
theorem Volume.ipg_eq : 0 < v.readpercg ∧ 0 < v.partialcnt ∧ v.partialcnt ≤ v.fullcnt ∧
    v.ipg = (v.readpercg - 1) * v.fullcnt + v.partialcnt := by
  have hF := v.fullcnt_eq.2
  have hpos := v.ipg_pos
  have hdiv := Nat.div_add_mod v.ipg v.fullcnt
  have hlt := Nat.mod_lt v.ipg hF
  unfold Volume.readpercg Volume.partialcnt
  by_cases hzero : v.ipg % v.fullcnt = 0
  · rw [if_neg (not_not.2 hzero), if_neg (not_not.2 hzero)]
    rw [hzero, Nat.add_zero, Nat.mul_comm] at hdiv
    have hq : 0 < v.ipg / v.fullcnt := by
      by_contra hq
      rw [Nat.eq_zero_of_not_pos hq, Nat.zero_mul] at hdiv
      omega
    refine ⟨hq, hF, le_rfl, ?_⟩
    obtain ⟨q, hq'⟩ := Nat.exists_eq_succ_of_ne_zero hq.ne'
    rw [hq'] at hdiv ⊢
    rw [Nat.succ_sub_one, ← Nat.succ_mul]
    exact hdiv.symm
  · rw [if_pos hzero, if_pos hzero]
    refine ⟨Nat.succ_pos _, Nat.pos_of_ne_zero hzero, hlt.le, ?_⟩
    rw [Nat.add_sub_cancel, Nat.mul_comm]
    exact hdiv.symm

/-- Chunk `m` of group `g`. -/
theorem chunk_at {g m : ℕ} (hm : m < v.readpercg) :
    v.chunk (v.readpercg * g + m) = g * v.ipg + m * v.fullcnt := by
  unfold Volume.chunk
  rw [Nat.mul_add_div (by omega), Nat.div_eq_of_lt hm, Nat.mul_add_mod, Nat.mod_eq_of_lt hm,
    Nat.add_zero]

/-- The next chunk starts behind this one, in the same group or in the next. -/
theorem chunk_cases (r : ℕ) : ∃ g m, m < v.readpercg ∧ r = v.readpercg * g + m ∧
    (m + 1 < v.readpercg ∧ (r + 1) % v.readpercg ≠ 0 ∧ v.chunk (r + 1) = v.chunk r + v.fullcnt ∨
      m + 1 = v.readpercg ∧ (r + 1) % v.readpercg = 0 ∧ v.chunk (r + 1) = v.chunk r + v.partialcnt ∧
        v.chunk (r + 1) = (g + 1) * v.ipg) := by
  obtain ⟨hP, -, -, hipg⟩ := v.ipg_eq
  have hr := (Nat.div_add_mod r v.readpercg).symm
  have hm := Nat.mod_lt r hP
  refine ⟨r / v.readpercg, r % v.readpercg, hm, hr, ?_⟩
  generalize r / v.readpercg = g at *
  generalize r % v.readpercg = m at *
  subst hr
  rw [chunk_at v hm]
  by_cases hlast : m + 1 = v.readpercg
  · right
    have hnext : v.readpercg * g + m + 1 = v.readpercg * (g + 1) + 0 := by
      rw [Nat.mul_succ]
      omega
    have hm' : m = v.readpercg - 1 := by omega
    have hchunk : v.chunk (v.readpercg * g + m + 1) = (g + 1) * v.ipg := by
      rw [hnext, chunk_at v hP, Nat.zero_mul, Nat.add_zero]
    refine ⟨hlast, by rw [hnext, Nat.mul_add_mod, Nat.zero_mod], ?_, hchunk⟩
    rw [hchunk, hm', Nat.succ_mul]
    omega
  · left
    have hlt : m + 1 < v.readpercg := by omega
    refine ⟨hlt, ?_, ?_⟩
    · rw [Nat.add_assoc, Nat.mul_add_mod, Nat.mod_eq_of_lt hlt]
      exact Nat.succ_ne_zero m
    · rw [Nat.add_assoc, chunk_at v hlt, Nat.succ_mul, Nat.add_assoc]

theorem Volume.chunk_succ (r : ℕ) : v.chunk (r + 1) =
    v.chunk r + if (r + 1) % v.readpercg = 0 then v.partialcnt else v.fullcnt := by
  obtain ⟨g, m, -, -, ⟨-, hz, hnext⟩ | ⟨-, hz, hnext, -⟩⟩ := chunk_cases v r
  · rw [if_neg hz, hnext]
  · rw [if_pos hz, hnext]

/-- What the variables of the scan say after `n` inodes. -/
structure ScanInv (n : ℕ) (s : Scanner) : Prop where
  nextino : s.nextino = n + 1
  lastinum : s.lastinum = v.chunk s.readcnt + 1
  start : n = 0 → s.readcnt = 0
  le : n ≤ v.chunk s.readcnt
  buf : 0 < n → ∃ r, s.readcnt = r + 1 ∧ v.chunk r < n ∧ s.addr = v.blockAddr (v.chunk r + 1) ∧
    s.bp = (n - v.chunk r) * v.isize

theorem chunk_zero : v.chunk 0 = 0 := by
  show 0 / v.readpercg * v.ipg + 0 % v.readpercg * v.fullcnt = 0
  rw [Nat.zero_div, Nat.zero_mod, Nat.zero_mul, Nat.zero_mul]

theorem chunk_lt (r : ℕ) : v.chunk r < v.chunk (r + 1) := by
  obtain ⟨-, hq, hle, -⟩ := v.ipg_eq
  rw [v.chunk_succ]
  split <;> omega

/-- The chunk with the next inode is in the buffer. -/
theorem ScanInv.fetch {n : ℕ} {s : Scanner} (h : ScanInv v n s) :
    ∃ r, v.chunk r ≤ n ∧ n < v.chunk (r + 1) ∧
      (({ s with nextino := s.nextino + 1 } : Scanner).fetch v (n + 1)) =
        ⟨n + 2, v.chunk (r + 1) + 1, r + 1, v.blockAddr (v.chunk r + 1),
          (n - v.chunk r) * v.isize⟩ := by
  have hle := h.le
  unfold Scanner.fetch
  dsimp only
  rw [h.lastinum, h.nextino]
  by_cases hread : v.chunk s.readcnt + 1 ≤ n + 1
  · -- a chunk is read, from the number on that is wanted
    have hn : n = v.chunk s.readcnt := by omega
    have hlt := chunk_lt v s.readcnt
    refine ⟨s.readcnt, hn.ge, by omega, ?_⟩
    rw [if_pos hread, ← hn, Nat.sub_self, Nat.zero_mul, v.chunk_succ, ← hn]
    congr 1
    exact Nat.add_right_comm n 1 _
  · have hpos : 0 < n := by
      by_contra hzero
      have hn0 : n = 0 := by omega
      subst hn0
      rw [h.start rfl, chunk_zero] at hread
      exact hread le_rfl
    obtain ⟨r, hr, hlt, haddr, hbp⟩ := h.buf hpos
    rw [if_neg hread]
    rw [hr] at hread
    refine ⟨r, hlt.le, by omega, ?_⟩
    rw [← haddr, ← hbp, ← hr]

/-- One inode further: what `getnextinode` returns, and the invariant. -/
theorem ScanInv.next {n : ℕ} {s : Scanner} (h : ScanInv v n s) (hn : n + 1 ≤ v.maxino) :
    ∃ r s', v.chunk r ≤ n ∧ n < v.chunk (r + 1) ∧
      getnextinode v (n + 1) s =
        some (v.blockAddr (v.chunk r + 1) + ((n - v.chunk r) * v.isize : ℕ), s') ∧
      ScanInv v (n + 1) s' := by
  obtain ⟨r, hle, hlt, hfetch⟩ := h.fetch
  refine ⟨r, ⟨n + 2, v.chunk (r + 1) + 1, r + 1, v.blockAddr (v.chunk r + 1),
    (n - v.chunk r) * v.isize + v.isize⟩, hle, hlt, ?_, ?_⟩
  · unfold getnextinode
    rw [if_neg (by rw [h.nextino]; omega), hfetch]
  · exact {
      nextino := rfl
      lastinum := rfl
      start := fun h0 => absurd h0 (Nat.succ_ne_zero n)
      le := hlt
      buf := fun _ => ⟨r, rfl, Nat.lt_succ_of_le hle, rfl, by
        rw [Nat.succ_sub hle, Nat.succ_mul]⟩ }

theorem scanTo_inv {n : ℕ} (hn : n ≤ v.maxino) : ∃ s, scanTo v n = some s ∧ ScanInv v n s := by
  induction n with
  | zero =>
    refine ⟨_, rfl, rfl, ?_, fun _ => rfl, Nat.zero_le _, fun h => absurd h (lt_irrefl 0)⟩
    show 1 = v.chunk 0 + 1
    rw [chunk_zero]
  | succ n ih =>
    obtain ⟨s, hs, hinv⟩ := ih (by omega)
    obtain ⟨r, s', -, -, hget, hinv'⟩ := hinv.next v hn
    refine ⟨s', ?_, hinv'⟩
    show (scanTo v n).bind _ = _
    rw [hs, Option.bind_some, hget]
    rfl

/-- The chunk an inode is read in starts with this one. -/
def Volume.chunkStart (i : ℕ) : ℕ :=
  (i - 1) / v.ipg * v.ipg + (i - 1) % v.ipg / v.fullcnt * v.fullcnt + 1

/-- A chunk lies in one group. -/
theorem chunkStart_eq {r : ℕ} (hle : v.chunk r ≤ i - 1) (hlt : i - 1 < v.chunk (r + 1)) :
    v.chunkStart i = v.chunk r + 1 := by
  obtain ⟨hP, hq, hqF, hipg⟩ := v.ipg_eq
  have hF := v.fullcnt_eq.2
  obtain ⟨g, m, hm, rfl, hcase⟩ := chunk_cases v r
  rw [chunk_at v hm] at hle hcase ⊢
  obtain ⟨k, hk⟩ : ∃ k, i - 1 = g * v.ipg + m * v.fullcnt + k := Nat.exists_eq_add_of_le hle
  have hkF : k < v.fullcnt := by
    rcases hcase with ⟨-, -, hnext⟩ | ⟨-, -, hnext, -⟩ <;> omega
  have hin : m * v.fullcnt + k < v.ipg := by
    rcases hcase with ⟨hm1, -, hnext⟩ | ⟨-, -, -, hnext⟩
    · have hle := Nat.mul_le_mul_right v.fullcnt (show m + 1 ≤ v.readpercg - 1 by omega)
      rw [Nat.succ_mul] at hle
      omega
    · rw [hnext, Nat.succ_mul] at hlt
      omega
  unfold Volume.chunkStart
  have hd : (i - 1) / v.ipg = g := by
    rw [hk, Nat.add_assoc, Nat.mul_comm g, Nat.mul_add_div v.ipg_pos, Nat.div_eq_of_lt hin,
      Nat.add_zero]
  have hz : (i - 1) % v.ipg = m * v.fullcnt + k := by
    rw [hk, Nat.add_assoc, Nat.mul_comm g, Nat.mul_add_mod, Nat.mod_eq_of_lt hin]
  have hd' : (m * v.fullcnt + k) / v.fullcnt = m := by
    rw [Nat.mul_comm m, Nat.mul_add_div hF, Nat.div_eq_of_lt hkF, Nat.add_zero]
  rw [hd, hz, hd']

/-- **What the scan points at**: the place of the inode in the chunk that holds it. -/
theorem getnextinode_spec (h1 : 1 ≤ i) (hi : i ≤ v.maxino) :
    v.chunkStart i ≤ i ∧
      scanned v i = some (v.blockAddr (v.chunkStart i) + ((i - v.chunkStart i) * v.isize : ℕ)) := by
  obtain ⟨n, rfl⟩ := Nat.exists_eq_add_of_le' h1
  obtain ⟨s, hs, hinv⟩ := scanTo_inv v (show n ≤ v.maxino by omega)
  obtain ⟨r, s', hle, hlt, hget, -⟩ := hinv.next v hi
  have hstart := chunkStart_eq v (show v.chunk r ≤ n + 1 - 1 from hle) hlt
  rw [hstart]
  refine ⟨Nat.succ_le_succ hle, ?_⟩
  unfold scanned
  rw [Nat.add_sub_cancel, hs, Option.bind_some, hget, Nat.add_sub_add_right]
  rfl

/-- The slots of a chunk follow each other. -/
theorem slotAddr_chunk (h1 : 1 ≤ i) :
    v.slotAddr i = v.slotAddr (v.chunkStart i) + (i - v.chunkStart i) * v.isize := by
  have hF := v.fullcnt_eq.2
  have hdiv := Nat.div_add_mod (i - 1) v.ipg
  have hdiv' := Nat.div_add_mod ((i - 1) % v.ipg) v.fullcnt
  have hlt := Nat.mod_lt (i - 1) v.ipg_pos
  unfold Volume.slotAddr Volume.inoToCg
  have hstart : v.chunkStart i - 1 =
      v.ipg * ((i - 1) / v.ipg) + (i - 1) % v.ipg / v.fullcnt * v.fullcnt := by
    unfold Volume.chunkStart
    rw [Nat.add_sub_cancel, Nat.mul_comm v.ipg]
  have hin : (i - 1) % v.ipg / v.fullcnt * v.fullcnt < v.ipg := by
    rw [Nat.mul_comm]
    omega
  have hd : (v.chunkStart i - 1) / v.ipg = (i - 1) / v.ipg := by
    rw [hstart, Nat.mul_add_div v.ipg_pos, Nat.div_eq_of_lt hin, Nat.add_zero]
  have hz : (v.chunkStart i - 1) % v.ipg = (i - 1) % v.ipg / v.fullcnt * v.fullcnt := by
    rw [hstart, Nat.mul_add_mod, Nat.mod_eq_of_lt hin]
  have hsub : i - v.chunkStart i = (i - 1) % v.ipg % v.fullcnt := by
    have hc : 1 ≤ v.chunkStart i := Nat.le_add_left 1 _
    rw [Nat.mul_comm v.fullcnt] at hdiv'
    omega
  rw [hd, hz, hsub, Nat.add_assoc, ← Nat.add_mul]
  rw [Nat.mul_comm v.fullcnt] at hdiv'
  rw [hdiv']

/-- **The scan points at the slot of an inode** exactly when the first block of its chunk is read from
its own place. -/
theorem scanned_iff (h1 : 1 ≤ i) (hi : i ≤ v.maxino) :
    scanned v i = some (v.slotAddr i : ℤ) ↔
      v.blockAddr (v.chunkStart i) = v.slotAddr (v.chunkStart i) := by
  rw [(getnextinode_spec v h1 hi).2, slotAddr_chunk v h1, Option.some.injEq]
  push_cast
  constructor
  · intro h
    omega
  · intro h
    omega

/-! ### The two readers -/

/-- Both readers point at the slot of an inode: `ginode` whatever came before, and the scan. -/
structure ReadersAgree (i : ℕ) : Prop where
  ginode : ∀ is, (∀ j ∈ is, v.Valid j) → ginodeAfter v is i = some (v.slotAddr i : ℤ)
  scan : scanned v i = some (v.slotAddr i : ℤ)

/-- The readers agree when the slot is at the start of its block, and the blocks they read lie below the
largest sector number they can hold. -/
theorem agree_iff (hi : v.Valid i) :
    ReadersAgree v i ↔
      v.AtSlot i ∧ v.blockAddr (v.chunkStart i) = v.slotAddr (v.chunkStart i) := by
  have h1 := valid_pos v hi
  have hle : i ≤ v.maxino := by
    by_contra hlt
    exact hi (.inr (by omega))
  rw [← ginode_iff v hi, ← scanned_iff v h1 hle]
  exact ⟨fun h => ⟨h.ginode, h.scan⟩, fun h => ⟨h.1, h.2⟩⟩

/-- A volume of ordinary shape: groups of whole inode blocks, and tables below sector `2 ^ 31`. -/
structure Volume.Regular : Prop where
  ipb : v.ipb ∣ v.ipg
  table : ∀ g, (v.tables g + v.ipg / v.ipb) * 2 ^ (v.logBsize + 1) < 2 ^ 31

/-- There the block of every inode is read from its own place. -/
theorem Volume.Regular.blockAddr (h : v.Regular) (i : ℕ) :
    v.blockAddr i = (v.slotAddr i : ℤ) - ((i - 1) % v.ipb * v.isize : ℕ) := by
  have hpos := v.ipb_pos
  have ht := h.table (v.inoToCg i)
  have hlt := Nat.mod_lt (i - 1) v.ipg_pos
  have hmod : (i - 1) % v.ipg % v.ipb = (i - 1) % v.ipb := Nat.mod_mod_of_dvd _ h.ipb
  have hdiv : (i - 1) % v.ipg / v.ipb ≤ v.ipg / v.ipb := Nat.div_le_div_right hlt.le
  have hsplit := Nat.div_add_mod ((i - 1) % v.ipg) v.ipb
  rw [hmod] at hsplit
  have hB : v.bsize = DEV_BSIZE * 2 ^ (v.logBsize + 1) := by
    unfold Volume.bsize DEV_BSIZE
    rw [pow_succ]
    ring
  unfold Volume.blockAddr Volume.fsbtodb Volume.inoToFsba Volume.slotAddr
  generalize v.tables (v.inoToCg i) = t at *
  generalize hx : (i - 1) % v.ipg / v.ipb = x at *
  have hpow : 1 ≤ 2 ^ (v.logBsize + 1) := Nat.one_le_two_pow
  have hle : (t + x) * 2 ^ (v.logBsize + 1) < 2 ^ 31 :=
    lt_of_le_of_lt (Nat.mul_le_mul_right _ (by omega)) ht
  have hle' : t + x < 2 ^ 31 := lt_of_le_of_lt (Nat.le_mul_of_pos_right _ hpow) hle
  have hfsba : i32 (t + x : ℕ) = (t + x : ℕ) := i32_of_lt (by omega) (by omega)
  have hcast : ((t + x : ℕ) : ℤ) * 2 ^ (v.logBsize + 1) =
      ((t + x) * 2 ^ (v.logBsize + 1) : ℕ) := by
    push_cast
    rfl
  have hdb : i32 ((t + x) * 2 ^ (v.logBsize + 1) : ℕ) = ((t + x) * 2 ^ (v.logBsize + 1) : ℕ) := by
    apply i32_of_lt
    · exact le_trans (by decide) (Int.natCast_nonneg _)
    · exact_mod_cast hle
  have hslot : t * v.bsize + (i - 1) % v.ipg * v.isize =
      DEV_BSIZE * ((t + x) * 2 ^ (v.logBsize + 1)) + (i - 1) % v.ipb * v.isize := by
    calc t * v.bsize + (i - 1) % v.ipg * v.isize
        = t * v.bsize + (v.ipb * x + (i - 1) % v.ipb) * v.isize := by rw [hsplit]
      _ = (t + x) * v.bsize + (i - 1) % v.ipb * v.isize := by
          rw [v.bsize_eq]
          ring
      _ = _ := by
          rw [hB]
          ring
  rw [hfsba, hcast, hdb, hslot]
  push_cast
  ring

/-- There the inodes of a block are all looked for in it. -/
theorem Volume.Regular.blockAddr_congr (h : v.Regular) (hsame : (j - 1) / v.ipb = (i - 1) / v.ipb) :
    v.blockAddr j = v.blockAddr i := by
  obtain ⟨c, hc⟩ := h.ipb
  unfold Volume.blockAddr Volume.inoToFsba Volume.inoToCg
  rw [hc, ← Nat.div_div_eq_div_mul, ← Nat.div_div_eq_div_mul, Nat.mod_mul_right_div_self,
    Nat.mod_mul_right_div_self, hsame]

/-- There the readers agree exactly on the first inode of every block. -/
theorem agree_regular (h : v.Regular) (hi : v.Valid i) :
    ReadersAgree v i ↔ (i - 1) % v.ipb = 0 := by
  rw [agree_iff v hi]
  refine ⟨fun hr => hr.1.index, fun hindex => ?_⟩
  have hstart : v.blockAddr (v.chunkStart i) = v.slotAddr (v.chunkStart i) := by
    have hF : v.ipb ∣ v.fullcnt := ⟨_, by rw [v.fullcnt_eq.1, Nat.mul_comm]⟩
    have hz : (v.chunkStart i - 1) % v.ipb = 0 := by
      unfold Volume.chunkStart
      rw [Nat.add_sub_cancel]
      exact Nat.mod_eq_zero_of_dvd
        (dvd_add (dvd_mul_of_dvd_right h.ipb _) (dvd_mul_of_dvd_right hF _))
    rw [h.blockAddr v, hz, Nat.zero_mul]
    exact sub_zero _
  refine ⟨⟨hindex, ?_, fun j _ hsame => ?_⟩, hstart⟩
  · rw [Nat.mod_mod_of_dvd _ h.ipb, hindex]
  · rw [h.blockAddr_congr v hsame, h.blockAddr v, hindex, Nat.zero_mul]
    exact sub_zero _

/-- **Both readers point at the slot of an inode exactly when** the slot is at the start of its block,
and the blocks they read lie below the largest sector number they can hold.  On a volume of ordinary
shape these are the first inodes of the blocks. -/
theorem readers_iff (hi : v.Valid i) :
    (ReadersAgree v i ↔
      v.AtSlot i ∧ v.blockAddr (v.chunkStart i) = v.slotAddr (v.chunkStart i)) ∧
    (v.Regular → (ReadersAgree v i ↔ (i - 1) % v.ipb = 0)) :=
  ⟨agree_iff v hi, fun h => agree_regular v h hi⟩

end

/-- A volume of one group in blocks of 1 KiB, with inodes of 128 bytes. -/
def smallVolume : Volume where
  logBsize := 0
  isize := 128
  ipg := 2048
  gcount := 1
  tables _ := 5
  logBsize_le := by decide
  isize_cases := .inl rfl
  ipg_pos := by decide

theorem smallVolume_regular : smallVolume.Regular :=
  ⟨by decide, fun _ => by show (5 + 2048 / 8) * 2 ^ 1 < 2 ^ 31; decide⟩

/-- `ginode` takes the root directory from 28 bytes inside its slot; the scan finds it. -/
theorem root_misread : smallVolume.Valid 2 ∧ smallVolume.slotAddr 2 = 5248 ∧
    ginodeAfter smallVolume [] 2 = some 5276 ∧ scanned smallVolume 2 = some 5248 ∧
    ¬ReadersAgree smallVolume 2 := by
  have hread : ginodeAfter smallVolume [] 2 = some 5276 := by decide +kernel
  refine ⟨by decide, by decide, hread, by decide +kernel, fun h => ?_⟩
  have hslot := (h.ginode [] (by simp)).symm.trans hread
  exact absurd hslot (by decide)

/-- Inode 17 is the first one of the third block. -/
theorem seventeen_agree : ReadersAgree smallVolume 17 :=
  ((readers_iff smallVolume (by decide)).2 smallVolume_regular).2 (by decide)

end Ext2fs.Fsck
