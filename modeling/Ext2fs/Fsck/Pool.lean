import Ext2fs.Fsck.SbRuns

/-!
# Where the buffers of the checker are read and written

`getdatablk` keeps its buffers under the address of a sector, a `daddr32_t`.  It searches them for
`fsbtodb` of a block number in 64 bits, and lets `getblk` compute the address again in 32.

* `setup_checks` — what the superblock of an accepted volume has passed;
* `PoolOp` — what the passes do with the pool, and the reads and writes next to it;
* `PoolRight` — every access is at the place of the block that is meant;
* **`poolRight_iff`** — the accesses of all runs are right exactly on a volume whose sectors have
  numbers below `2 ^ 31`.
-/

namespace Ext2fs.Fsck

/-! ### What the superblock of an accepted volume has passed -/

section

variable {env : Env} {s s' : St}

theorem compareAlternate_sblock (s : St) : (compareAlternate env s).2.sblock = s.sblock := by
  have hflush : ∀ t : St, (flush env .asblk t).sblock = t.sblock := fun t => by
    unfold flush
    dsimp only
    split
    · exact (bwrite_same env _).sblock
    · rfl
  have hget : (getblkAlt env s.sblock.altSector s).sblock = s.sblock := by
    unfold getblkAlt
    split
    · rfl
    · exact hflush s
  unfold compareAlternate
  dsimp only
  split_ifs
  · rfl
  all_goals exact hget

theorem readsb_checks (h : (readsb env s).1 = true) : ¬(readsb env s).2.sblock.Bad := by
  unfold readsb at h ⊢
  cases hread : breadSb env s.super with
  | none =>
    rw [hread] at h
    exact absurd h Bool.false_ne_true
  | some img =>
    rw [hread] at h
    dsimp only at h ⊢
    by_cases hbad : img.Bad
    · rw [if_pos hbad] at h
      exact absurd h Bool.false_ne_true
    · rw [if_neg hbad, compareAlternate_sblock]
      exact hbad

theorem tryAlternates_checks {sectors : List ℤ} (h : (tryAlternates env sectors s).1 = true) :
    ¬(tryAlternates env sectors s).2.sblock.Bad := by
  induction sectors generalizing s with
  | nil => exact absurd h Bool.false_ne_true
  | cons sector sectors ih =>
    unfold tryAlternates at h ⊢
    dsimp only at h ⊢
    by_cases hr : (readsb env { s with bflag := sector }).1 = true
    · rw [if_pos hr]
      exact readsb_checks hr
    · rw [if_neg hr] at h ⊢
      exact ih h

theorem findSb_checks {r : St × Bool} (h : findSb env s = some r) : ¬r.1.sblock.Bad := by
  unfold findSb at h
  dsimp only at h
  split_ifs at h with hok
  · cases h
    exact readsb_checks hok
  · obtain ⟨blocks, -, hblocks⟩ := Option.bind_eq_some_iff.1 h
    split_ifs at hblocks with hfound
    cases hblocks
    exact tryAlternates_checks hfound

/-- `SET TO DEFAULT` leaves the fields that the checks are about. -/
theorem fixReserved_checks (h : fixReserved env s = some s') (hs : ¬s.sblock.Bad) :
    ¬s'.sblock.Bad := by
  unfold fixReserved at h
  split_ifs at h <;> cases h
  all_goals exact hs

theorem writeAlt_sblock (s : St) : (writeAlt env s).sblock = s.sblock := by
  unfold writeAlt
  split
  swap
  · rfl
  unfold flush
  dsimp only
  split
  · exact (bwrite_same env _).sblock
  · rfl

/-- **The superblock of an accepted volume** has passed the checks of `readsb`, and has as many
fragments in a group as blocks. -/
theorem setup_checks {fs : SbImage} (h : setup env fs = some s) :
    ¬s.sblock.Bad ∧ s.sblock.e2fs_bpg = s.sblock.e2fs_fpg := by
  unfold setup at h
  split_ifs at h
  obtain ⟨r, hr, h⟩ := Option.bind_eq_some_iff.1 h
  split_ifs at h
  obtain ⟨t, ht, h⟩ := Option.bind_eq_some_iff.1 h
  split_ifs at h with hfpg
  cases h
  have hsb : (readGd (writeAlt env t)).sblock = t.sblock := writeAlt_sblock t
  rw [hsb]
  exact ⟨fixReserved_checks ht (findSb_checks hr), by simpa using hfpg⟩

end

/-! ### The pool -/

/-- `struct bufarea` of the pool, with the block that its user takes it for. -/
structure PoolBuf where
  b_bno : ℤ
  b_dirty : Bool
  b_inuse : Bool
  user : Option ℕ
  deriving DecidableEq, Repr

/-- A read, a write, or a buffer that is handed out: the block that is meant, and the offset on the
device in bytes. -/
structure Access where
  blk : ℕ
  offset : ℤ
  deriving DecidableEq, Repr

/-- The buffers, in the order of the list at `bufhead`, and the accesses, the newest first. -/
structure BufPool where
  order : List ℕ
  buf : ℕ → PoolBuf
  log : List Access

namespace SbImage

variable (fs : SbImage)

/-- `fsbtodb` of a block number that was passed as a `daddr32_t`. -/
def sector64 (blk : ℕ) : ℤ := i32 blk * 2 ^ (fs.e2fs_log_bsize.toNat + 1)

/-- The same, kept in a `daddr32_t`. -/
def sector32 (blk : ℕ) : ℤ := i32 (fs.sector64 blk)

end SbImage

section

variable (fs : SbImage)

/-- `bufinit` -/
def bufinit (bufcnt : ℕ) : BufPool where
  order := (List.range bufcnt).reverse
  buf _ := ⟨-1, false, false, none⟩
  log := []

namespace BufPool

/-- A buffer is changed. -/
def setBuf (n : ℕ) (x : PoolBuf) (p : BufPool) : BufPool :=
  { p with buf := Function.update p.buf n x }

/-- An access at a sector. -/
def access (blk : ℕ) (sector : ℤ) (p : BufPool) : BufPool :=
  { p with log := ⟨blk, DEV_BSIZE * sector⟩ :: p.log }

/-- `flush` -/
def flush (n : ℕ) (p : BufPool) : BufPool :=
  if (p.buf n).b_dirty then
    (p.buf n).user.elim p fun blk =>
      (p.setBuf n { p.buf n with b_dirty := false }).access blk (p.buf n).b_bno
  else p

/-- `getblk` -/
def getblk (n blk : ℕ) (p : BufPool) : BufPool :=
  let dblk := fs.sector32 blk
  if (p.buf n).b_bno ≠ dblk then
    let p := (p.flush n).access blk dblk
    p.setBuf n { p.buf n with b_bno := dblk, user := some blk }
  else p.setBuf n { p.buf n with user := some blk }

/-- The end of `getdatablk`: the buffer goes to the front and is handed out. -/
def found (n blk : ℕ) (p : BufPool) : BufPool :=
  ({ p with order := n :: p.order.erase n }.setBuf n
    { p.buf n with b_inuse := true, user := some blk }).access blk (p.buf n).b_bno

/-- `getdatablk`; without a buffer the program ends. -/
def getdatablk (blk : ℕ) (p : BufPool) : Option BufPool :=
  match p.order.find? fun n => (p.buf n).b_bno = fs.sector64 blk with
  | some n => some (p.found n blk)
  | none => (p.order.reverse.find? fun n => !(p.buf n).b_inuse).map fun n =>
      (p.getblk fs n blk).found n blk

end BufPool

/-- What the passes do: they take a buffer for a block, change it, put it back, and read and write the
inode table and the descriptors without the pool. -/
inductive PoolOp where
  | getdatablk (blk : ℕ)
  | getblk (n blk : ℕ)
  | dirty (n : ℕ)
  | release (n : ℕ)
  | flush (n : ℕ)
  | bread (blk : ℕ)
  | bwrite (blk : ℕ)
  deriving DecidableEq, Repr

/-- The block that a step is about. -/
def PoolOp.blk : PoolOp → Option ℕ
  | getdatablk blk => some blk
  | getblk _ blk => some blk
  | bread blk => some blk
  | bwrite blk => some blk
  | _ => none

namespace BufPool

/-- One step; only a buffer that was taken for a block is changed. -/
def step (p : BufPool) : PoolOp → Option BufPool
  | .getdatablk blk => p.getdatablk fs blk
  | .getblk n blk => some (p.getblk fs n blk)
  | .dirty n =>
    if (p.buf n).user.isSome then
      some (p.setBuf n { p.buf n with b_dirty := true })
    else none
  | .release n => some (p.setBuf n { p.buf n with b_inuse := false })
  | .flush n => some (p.flush n)
  | .bread blk => some (p.access blk (fs.sector32 blk))
  | .bwrite blk => some (p.access blk (fs.sector32 blk))

/-- A run. -/
def run (ops : List PoolOp) (p : BufPool) : Option BufPool := ops.foldlM (step fs) p

end BufPool

/-- The block lies at its place. -/
def Access.Right (a : Access) : Prop := a.offset = a.blk * fs.bsize

/-- **What the pool is for**: different blocks have different addresses, and in every run each access is
at the place of the block that is meant. -/
structure PoolRight : Prop where
  apart : ∀ b < fs.e2fs_bcount.toNat, ∀ b' < fs.e2fs_bcount.toNat,
    fs.sector32 b = fs.sector32 b' → b = b'
  placed : ∀ (bufcnt : ℕ) (ops : List PoolOp),
    (∀ op ∈ ops, ∀ b ∈ op.blk, b < fs.e2fs_bcount.toNat) →
    ∀ p, (bufinit bufcnt).run fs ops = some p → ∀ a ∈ p.log, a.Right fs

end

/-! ### A volume with small sector numbers -/

section

variable {fs : SbImage} {p p' : BufPool}

/-- The sectors of the volume have numbers below `2 ^ 31`. -/
def SbImage.Addressable (fs : SbImage) : Prop :=
  fs.e2fs_bcount.toNat * 2 ^ (fs.e2fs_log_bsize.toNat + 1) ≤ 2 ^ 31

theorem SbImage.Addressable.sector (h : fs.Addressable) {b : ℕ} (hb : b < fs.e2fs_bcount.toNat) :
    fs.sector64 b = (b * 2 ^ (fs.e2fs_log_bsize.toNat + 1) : ℕ) ∧ fs.sector32 b = fs.sector64 b := by
  have hle : b * 2 ^ (fs.e2fs_log_bsize.toNat + 1) < 2 ^ 31 :=
    (Nat.mul_lt_mul_of_pos_right hb (Nat.two_pow_pos _)).trans_le h
  have hb31 : b < 2 ^ 31 := (Nat.le_mul_of_pos_right b (Nat.two_pow_pos _)).trans_lt hle
  have hblk : i32 (b : ℤ) = b := i32_of_lt (by omega) (by exact_mod_cast hb31)
  have h64 : fs.sector64 b = (b * 2 ^ (fs.e2fs_log_bsize.toNat + 1) : ℕ) := by
    unfold sector64
    rw [hblk]
    push_cast
    rfl
  refine ⟨h64, ?_⟩
  unfold sector32
  rw [h64]
  exact i32_of_lt (by omega) (by exact_mod_cast hle)

theorem SbImage.bsize_sector (fs : SbImage) :
    DEV_BSIZE * 2 ^ (fs.e2fs_log_bsize.toNat + 1) = fs.bsize := by
  unfold DEV_BSIZE bsize
  rw [pow_succ]
  ring

/-- The offset of a block with such a sector. -/
theorem SbImage.Addressable.right (h : fs.Addressable) {b : ℕ} (hb : b < fs.e2fs_bcount.toNat) :
    (⟨b, DEV_BSIZE * fs.sector32 b⟩ : Access).Right fs := by
  obtain ⟨h64, h32⟩ := h.sector hb
  show (DEV_BSIZE : ℤ) * fs.sector32 b = b * fs.bsize
  rw [h32, h64, ← fs.bsize_sector]
  push_cast
  ring

@[simp] theorem BufPool.setBuf_self (n : ℕ) (x : PoolBuf) : (p.setBuf n x).buf n = x :=
  Function.update_self ..

/-- Each buffer that was taken for a block is the one of that block, and the accesses are right. -/
structure BufPool.Sound (fs : SbImage) (p : BufPool) : Prop where
  user : ∀ n, ∀ b ∈ (p.buf n).user, b < fs.e2fs_bcount.toNat ∧ (p.buf n).b_bno = fs.sector32 b
  log : ∀ a ∈ p.log, a.Right fs

namespace BufPool.Sound

theorem access (h : p.Sound fs) (hfs : fs.Addressable) {b : ℕ} (hb : b < fs.e2fs_bcount.toNat) :
    (p.access b (fs.sector32 b)).Sound fs where
  user := h.user
  log a ha := by
    rcases List.mem_cons.1 ha with rfl | ha
    · exact hfs.right hb
    · exact h.log a ha

/-- A buffer is changed, and still is the one of its block. -/
theorem update (h : p.Sound fs) {n : ℕ} {x : PoolBuf}
    (hx : ∀ b ∈ x.user, b < fs.e2fs_bcount.toNat ∧ x.b_bno = fs.sector32 b) :
    (p.setBuf n x).Sound fs where
  user m b hb := by
    by_cases hm : m = n
    · subst hm
      rw [BufPool.setBuf_self] at hb ⊢
      exact hx b hb
    · have hne : (p.setBuf n x).buf m = p.buf m := Function.update_of_ne hm ..
      rw [hne] at hb ⊢
      exact h.user m b hb
  log := h.log

theorem flush (h : p.Sound fs) (hfs : fs.Addressable) (n : ℕ) : (p.flush n).Sound fs := by
  unfold BufPool.flush
  split
  swap
  · exact h
  cases hu : (p.buf n).user with
  | none => exact h
  | some b =>
    obtain ⟨hb, hno⟩ := h.user n b hu
    show (BufPool.access _ _ _).Sound fs
    rw [hno]
    refine (h.update (n := n) fun c hc => ?_).access hfs hb
    exact h.user n c hc

theorem getblk (h : p.Sound fs) (hfs : fs.Addressable) (n : ℕ) {b : ℕ}
    (hb : b < fs.e2fs_bcount.toNat) :
    (p.getblk fs n b).Sound fs ∧ ((p.getblk fs n b).buf n).b_bno = fs.sector32 b := by
  unfold BufPool.getblk
  dsimp only
  split
  · refine ⟨((h.flush hfs n).access hfs hb).update fun c hc => ?_, ?_⟩
    · obtain rfl : b = c := Option.some.inj hc
      exact ⟨hb, by dsimp only⟩
    · rw [BufPool.setBuf_self]
  · next heq =>
    have hno : (p.buf n).b_bno = fs.sector32 b := not_not.1 heq
    refine ⟨h.update fun c hc => ?_, ?_⟩
    · obtain rfl : b = c := Option.some.inj hc
      exact ⟨hb, hno⟩
    · rw [BufPool.setBuf_self]
      exact hno

theorem found (h : p.Sound fs) (hfs : fs.Addressable) {n b : ℕ} (hb : b < fs.e2fs_bcount.toNat)
    (hno : (p.buf n).b_bno = fs.sector32 b) : (p.found n b).Sound fs := by
  unfold BufPool.found
  rw [hno]
  have horder : ({ p with order := n :: p.order.erase n } : BufPool).Sound fs := ⟨h.user, h.log⟩
  refine (horder.update fun c hc => ?_).access hfs hb
  obtain rfl : b = c := Option.some.inj hc
  exact ⟨hb, hno⟩

/-- **One step** keeps the buffers with their blocks. -/
theorem step (h : p.Sound fs) (hfs : fs.Addressable) {op : PoolOp}
    (hop : ∀ b ∈ op.blk, b < fs.e2fs_bcount.toNat) (hp : p.step fs op = some p') : p'.Sound fs := by
  cases op with
  | getdatablk b =>
    have hb := hop b rfl
    replace hp : p.getdatablk fs b = some p' := hp
    unfold BufPool.getdatablk at hp
    cases hfind : p.order.find? fun n => (p.buf n).b_bno = fs.sector64 b with
    | some n =>
      rw [hfind] at hp
      cases hp
      have hno : (p.buf n).b_bno = fs.sector64 b := by simpa using List.find?_some hfind
      exact h.found hfs hb (hno.trans (hfs.sector hb).2.symm)
    | none =>
      rw [hfind] at hp
      obtain ⟨n, -, rfl⟩ := Option.map_eq_some_iff.1 hp
      obtain ⟨hget, hno⟩ := h.getblk hfs n hb
      exact hget.found hfs hb hno
  | getblk n b =>
    cases hp
    exact (h.getblk hfs n (hop b rfl)).1
  | dirty n =>
    replace hp : (if _ then _ else _) = some p' := hp
    split at hp
    · cases hp
      exact h.update (h.user n)
    · cases hp
  | release n =>
    cases hp
    exact h.update (h.user n)
  | flush n =>
    cases hp
    exact h.flush hfs n
  | bread b =>
    cases hp
    exact h.access hfs (hop b rfl)
  | bwrite b =>
    cases hp
    exact h.access hfs (hop b rfl)

/-- So does a run. -/
theorem run (h : p.Sound fs) (hfs : fs.Addressable) (ops : List PoolOp)
    (hops : ∀ op ∈ ops, ∀ b ∈ op.blk, b < fs.e2fs_bcount.toNat) (hp : p.run fs ops = some p') :
    p'.Sound fs := by
  induction ops generalizing p with
  | nil =>
    cases hp
    exact h
  | cons op ops ih =>
    obtain ⟨q, hq, hrest⟩ := Option.bind_eq_some_iff.1 hp
    exact ih (h.step hfs (hops op (List.mem_cons_self ..)) hq)
      (fun o ho => hops o (List.mem_cons_of_mem _ ho)) hrest

end BufPool.Sound

theorem bufinit_sound (bufcnt : ℕ) : (bufinit bufcnt).Sound fs :=
  ⟨fun _ _ hb => (nomatch hb), fun _ ha => (nomatch ha)⟩

/-! ### A volume with large ones -/

/-- The first block whose sector has a number that is too large. -/
def SbImage.firstBad (fs : SbImage) : ℕ := 2 ^ (30 - fs.e2fs_log_bsize.toNat)

theorem firstBad_sector (hlog : fs.e2fs_log_bsize.toNat ≤ 2) : fs.sector32 fs.firstBad = -2 ^ 31 := by
  unfold SbImage.sector32 SbImage.sector64 SbImage.firstBad
  have h3 : fs.e2fs_log_bsize.toNat = 0 ∨ fs.e2fs_log_bsize.toNat = 1 ∨
      fs.e2fs_log_bsize.toNat = 2 := by omega
  rcases h3 with h | h | h <;> rw [h] <;> decide

theorem firstBad_lt (hlog : fs.e2fs_log_bsize.toNat ≤ 2) (hbig : ¬fs.Addressable) :
    fs.firstBad < fs.e2fs_bcount.toNat := by
  unfold SbImage.Addressable at hbig
  unfold SbImage.firstBad
  have h3 : fs.e2fs_log_bsize.toNat = 0 ∨ fs.e2fs_log_bsize.toNat = 1 ∨
      fs.e2fs_log_bsize.toNat = 2 := by omega
  rcases h3 with h | h | h <;> rw [h] at hbig ⊢ <;> omega

/-- **Where the buffers are right**: on the volumes of at most 1 TiB, and on no others. -/
theorem poolRight_iff (env : Env) (sb : SbImage) (s : St) (h : setup env sb = some s) :
    PoolRight s.sblock ↔
      s.sblock.e2fs_bcount.toNat * 2 ^ (s.sblock.e2fs_log_bsize.toNat + 1) ≤ 2 ^ 31 := by
  have hlog : s.sblock.e2fs_log_bsize.toNat ≤ 2 := by
    have hchecks := (setup_checks h).1
    unfold SbImage.Bad at hchecks
    omega
  constructor
  · intro hright
    by_contra hbig
    have hlt := firstBad_lt hlog hbig
    have hrun : (bufinit 0).run s.sblock [.bread s.sblock.firstBad] =
        some ((bufinit 0).access s.sblock.firstBad (s.sblock.sector32 s.sblock.firstBad)) := rfl
    have hplace := hright.placed 0 [.bread s.sblock.firstBad]
      (fun op hop b hb => by
        obtain rfl := List.mem_singleton.1 hop
        obtain rfl : s.sblock.firstBad = b := by simpa [PoolOp.blk] using hb
        exact hlt) _ hrun _ (List.mem_cons_self ..)
    rw [firstBad_sector hlog] at hplace
    have hneg : (DEV_BSIZE : ℤ) * -2 ^ 31 = s.sblock.firstBad * s.sblock.bsize := hplace
    have hpos : (0 : ℤ) ≤ (s.sblock.firstBad : ℤ) * s.sblock.bsize := by positivity
    rw [← hneg] at hpos
    revert hpos
    decide
  · intro hfs
    refine ⟨fun b hb b' hb' heq => ?_, fun bufcnt ops hops p hp =>
      ((bufinit_sound bufcnt).run hfs ops hops hp).log⟩
    rw [(SbImage.Addressable.sector hfs hb).2, (SbImage.Addressable.sector hfs hb').2,
      (SbImage.Addressable.sector hfs hb).1, (SbImage.Addressable.sector hfs hb').1] at heq
    exact Nat.eq_of_mul_eq_mul_right (Nat.two_pow_pos _) (by exact_mod_cast heq)

end

/-! ### Two volumes -/

/-- A volume of a little more than 2 TiB, in blocks of 4 KiB. -/
def largeVolume : SbImage :=
  { oneGroup with
    e2fs_icount := 16385 * 64
    e2fs_bcount := 0x20000001
    e2fs_first_dblock := 0
    e2fs_log_bsize := 2
    e2fs_log_fsize := 2
    e2fs_bpg := 32768
    e2fs_fpg := 32768 }

/-- `fsck` of a device on which the superblock and its first copy are this one. -/
def readLarge : Env where
  bflag := 0
  preen := false
  skipclean := false
  writable := true
  disk _ := some largeVolume
  devBlocks := none
  lookForAlternates := false
  setToDefault := false
  nbufs := 5

/-- **The last block of the volume** is looked for in the boot sector. -/
theorem largeVolume_misplaced :
    (setup readLarge largeVolume).map St.sblock = some largeVolume ∧
      ((bufinit 5).run largeVolume [.getdatablk 0x20000000]).map BufPool.log =
        some [⟨0x20000000, 0⟩, ⟨0x20000000, 0⟩] ∧
      ¬PoolRight largeVolume := by
  have hlog : ((bufinit 5).run largeVolume [.getdatablk 0x20000000]).map BufPool.log =
      some [⟨0x20000000, 0⟩, ⟨0x20000000, 0⟩] := by decide +kernel
  refine ⟨by decide +kernel, hlog, fun h => ?_⟩
  obtain ⟨p, hp, hplog⟩ := Option.map_eq_some_iff.1 hlog
  have hplace := h.placed 5 [.getdatablk 0x20000000] (by decide +kernel) p hp ⟨0x20000000, 0⟩
    (by rw [hplog]; exact List.mem_cons_self ..)
  revert hplace
  unfold Access.Right
  decide +kernel

theorem oneGroup_poolRight : PoolRight oneGroup := by
  have hset : (setup preenOneGroup oneGroup).map St.sblock = some oneGroup := by decide +kernel
  obtain ⟨s, hs, hsb⟩ := Option.map_eq_some_iff.1 hset
  have hiff := poolRight_iff preenOneGroup oneGroup s hs
  rw [hsb] at hiff
  exact hiff.2 (by decide +kernel)

end Ext2fs.Fsck
