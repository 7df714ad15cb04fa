import Ext2fs.Fsck.Inodes
import Ext2fs.Fsck.Pool

/-!
# What the buffers of the checker hold

Besides the addresses of `Pool` there are the contents of the buffers, the disk, and the variables that
keep a buffer for longer: `pbp`, `pdirbp`, and the two of `pass5`.  A buffer in use has one flag,
`B_INUSE`, however many of them point to it.

* `DataPool` — the pool with the contents, the disk, and who has which buffer for which block;
* `PoolCall`, `PoolCall.run` — the calls, `getblk` as `pass5` makes it;
* `Coherent` — no block twice, nothing stale, nothing lost, and no buffer changes its block under a user;
* `Careful` — nobody else has the buffer that is let go or retargeted;
* **`pool_coherent`** — a run of careful calls keeps the pool coherent;
* **`retarget_coherent_iff`** — and `pass5` has to be careful.
-/

namespace Ext2fs.Fsck

/-- The variables that keep a buffer; the callers of `getdatablk` have their own ones. -/
inductive Holder where
  | pbp
  | pdirbp
  | blkBitmap
  | inoBitmap
  | caller (i : ℕ)
  deriving DecidableEq, Repr

/-- The pool and the contents of its buffers, and the disk by sectors. -/
structure DataPool (D : Type) where
  pool : BufPool
  data : ℕ → D
  disk : ℤ → D
  /-- the buffer that a variable points to, and the block it was taken for -/
  held : Holder → Option (ℕ × ℕ)
  startinum : ℕ
  /-- what was stored last in a block -/
  last : ℕ → D

/-- The sector at which a block starts. -/
def SbImage.firstSector (fs : SbImage) (b : ℕ) : ℤ := (b * 2 ^ (fs.e2fs_log_bsize.toNat + 1) : ℕ)

namespace DataPool

variable {D : Type}

section

variable (fs : SbImage)

/-- `bufinit`, with a disk. -/
def start (bufcnt : ℕ) (disk : ℤ → D) : DataPool D where
  pool := bufinit bufcnt
  data _ := disk 0
  disk := disk
  held _ := none
  startinum := 0
  last b := disk (fs.firstSector b)

variable (s : DataPool D)

/-- `flush` -/
def flush (n : ℕ) : DataPool D :=
  { s with
    pool := s.pool.flush n
    disk := if (s.pool.buf n).b_dirty then Function.update s.disk (s.pool.buf n).b_bno (s.data n)
      else s.disk }

/-- `getblk` -/
def getblk (n blk : ℕ) : DataPool D :=
  if (s.pool.buf n).b_bno ≠ fs.sector32 blk then
    { s.flush n with
      pool := s.pool.getblk fs n blk
      data := Function.update s.data n ((s.flush n).disk (fs.sector32 blk)) }
  else { s with pool := s.pool.getblk fs n blk }

/-- The end of `getdatablk`. -/
def found (n blk : ℕ) : DataPool D := { s with pool := s.pool.found n blk }

/-- `getdatablk`: the buffer, if the program has not ended. -/
def getdatablk (blk : ℕ) : Option (ℕ × DataPool D) :=
  match s.pool.order.find? fun n => (s.pool.buf n).b_bno = fs.sector64 blk with
  | some n => some (n, s.found n blk)
  | none => (s.pool.order.reverse.find? fun n => !(s.pool.buf n).b_inuse).map fun n =>
      (n, (s.getblk fs n blk).found n blk)

/-- A variable gets the buffer of a block. -/
def take (h : Holder) (blk : ℕ) : Option (DataPool D) :=
  (s.getdatablk fs blk).map fun r => { r.2 with held := Function.update r.2.held h (some (r.1, blk)) }

/-- `bp->b_flags &= ~B_INUSE`, unless the variable is null. -/
def letGo (h : Holder) : DataPool D :=
  match s.held h with
  | none => s
  | some (n, _) => { s with
      pool := s.pool.setBuf n { s.pool.buf n with b_inuse := false }
      held := Function.update s.held h none }

/-- `getblk` of a buffer that a variable has, for another block. -/
def retarget (h : Holder) (n blk : ℕ) : DataPool D :=
  { s.getblk fs n blk with held := Function.update s.held h (some (n, blk)) }

/-- Contents are stored in a buffer, and it is marked dirty. -/
def store (n blk : ℕ) (d : D) : DataPool D :=
  { s with
    pool := s.pool.setBuf n { s.pool.buf n with b_dirty := true }
    data := Function.update s.data n d
    last := Function.update s.last blk d }

/-- The loop of `ckfini`. -/
def flushAll : List ℕ → DataPool D → DataPool D
  | [], s => s
  | n :: ns, s => flushAll ns (s.flush n)

/-- `ckfini`: the buffers are written and freed. -/
def ckfini : DataPool D :=
  let t := flushAll s.pool.order.reverse s
  { t with pool := { t.pool with order := [] }, held := fun _ => none }

end

end DataPool

/-- The calls; `getdatablk` is made with a variable of the caller, who releases it later. -/
inductive PoolCall (D : Type) where
  | getdatablk (i blk : ℕ)
  | release (i : ℕ)
  | getdirblk (blk : ℕ)
  | ginode (inumber : ℕ)
  | bitmap (ino : Bool) (blk : ℕ)
  | dirty (h : Holder) (d : D)
  | flush (n : ℕ)
  | ckfini

/-- The variable of `pass5`. -/
def bitmapOf (ino : Bool) : Holder := if ino then .inoBitmap else .blkBitmap

/-- The block of an inode is not the one in `pbp`. -/
def Volume.Elsewhere (v : Volume) (startinum i : ℕ) : Prop :=
  startinum = 0 ∨ i < startinum ∨ startinum + v.ipb ≤ i

instance (v : Volume) (startinum i : ℕ) : Decidable (v.Elsewhere startinum i) :=
  inferInstanceAs (Decidable (_ ∨ _))

/-- The block that `ginode` asks for. -/
def Volume.inoBlk (v : Volume) (i : ℕ) : ℕ := u32 (v.inoToFsba i)

section

variable (fs : SbImage) (v : Volume) {D : Type}

/-- A call; where the program ends, or a null pointer is followed, there is no state behind it. -/
def PoolCall.run (s : DataPool D) : PoolCall D → Option (DataPool D)
  | .getdatablk i blk => s.take fs (.caller i) blk
  | .release i => some (s.letGo (.caller i))
  | .getdirblk blk => (s.letGo .pdirbp).take fs .pdirbp blk
  | .ginode i =>
    if ¬v.Valid i then none
    else if v.Elsewhere s.startinum i then
      ((s.letGo .pbp).take fs .pbp (v.inoBlk i)).map fun t =>
        { t with startinum := (i - 1) / v.ipb * v.ipb + 1 }
    else (s.held .pbp).map fun _ => s
  | .bitmap ino blk =>
    match s.held (bitmapOf ino) with
    | none => s.take fs (bitmapOf ino) blk
    | some (n, _) => some (s.retarget fs (bitmapOf ino) n blk)
  | .dirty h d => (s.held h).map fun r => s.store r.1 r.2 d
  | .flush n => if n ∈ s.pool.order then some (s.flush n) else none
  | .ckfini => some s.ckfini

/-! ### What is right -/

/-- **What the pool is for.** -/
structure Coherent (s : DataPool D) : Prop where
  /-- At most one buffer holds a block. -/
  sole : ∀ n ∈ s.pool.order, ∀ m ∈ s.pool.order, ∀ b ∈ (s.pool.buf n).user,
    b ∈ (s.pool.buf m).user → n = m
  /-- What is read of a block is what was stored there last. -/
  seen : ∀ n ∈ s.pool.order, ∀ b ∈ (s.pool.buf n).user, s.data n = s.last b
  /-- Where no buffer is dirty, it is on the disk. -/
  kept : ∀ b, (∀ n ∈ s.pool.order, b ∈ (s.pool.buf n).user → (s.pool.buf n).b_dirty = false) →
    s.disk (fs.firstSector b) = s.last b
  /-- A buffer that somebody has is the one of the block it was taken for. -/
  held : ∀ h, ∀ r ∈ s.held h, r.1 ∈ s.pool.order ∧ r.2 ∈ (s.pool.buf r.1).user

/-- The sectors of the block have numbers below `2 ^ 31`. -/
def SbImage.Small (fs : SbImage) (b : ℕ) : Prop := b * 2 ^ (fs.e2fs_log_bsize.toNat + 1) < 2 ^ 31

/-- Nobody but one has the buffer. -/
def DataPool.Alone (s : DataPool D) (h : Holder) : Prop :=
  ∀ r ∈ s.held h, ∀ h', ∀ r' ∈ s.held h', r'.1 = r.1 → h' = h

/-- **A careful call**: the sector of the block fits, the buffer that is let go or retargeted is nobody
else's, and no buffer holds yet the block that another one is retargeted to. -/
def Careful (s : DataPool D) : PoolCall D → Prop
  | .getdatablk _ blk => fs.Small blk
  | .release i => s.Alone (.caller i)
  | .getdirblk blk => fs.Small blk ∧ s.Alone .pdirbp
  | .ginode i => v.Elsewhere s.startinum i → fs.Small (v.inoBlk i) ∧ s.Alone .pbp
  | .bitmap ino blk => fs.Small blk ∧ ∀ r ∈ s.held (bitmapOf ino), r.2 ≠ blk →
      s.Alone (bitmapOf ino) ∧ ∀ m ∈ s.pool.order, blk ∉ (s.pool.buf m).user
  | .dirty _ _ => True
  | .flush _ => True
  | .ckfini => True

/-- The states of the runs of careful calls. -/
inductive Reach (bufcnt : ℕ) (disk : ℤ → D) : DataPool D → Prop where
  | start : Reach bufcnt disk (.start fs bufcnt disk)
  | step {s t : DataPool D} {c : PoolCall D} (h : Reach bufcnt disk s) (hc : Careful fs v s c)
      (ht : c.run fs v s = some t) : Reach bufcnt disk t

end

/-! ### The calls, one by one -/

section

variable {fs : SbImage} {v : Volume} {D : Type} {s t : DataPool D}

theorem getblk_fst (s : DataPool D) (n blk : ℕ) : (s.getblk fs n blk).pool = s.pool.getblk fs n blk := by
  unfold DataPool.getblk
  split <;> rfl

/-- Without the contents `getdatablk` is the one of `Pool`. -/
theorem getdatablk_fst (s : DataPool D) (blk : ℕ) :
    (s.getdatablk fs blk).map (fun r => r.2.pool) = s.pool.getdatablk fs blk := by
  unfold DataPool.getdatablk BufPool.getdatablk
  cases s.pool.order.find? fun n => (s.pool.buf n).b_bno = fs.sector64 blk with
  | some n => rfl
  | none =>
    refine (Option.map_map ..).trans (congrArg (Option.map · _) ?_)
    funext n
    exact congrArg (BufPool.found n blk) (getblk_fst s n blk)

theorem SbImage.Small.sector {b : ℕ} (h : fs.Small b) :
    fs.sector64 b = fs.firstSector b ∧ fs.sector32 b = fs.firstSector b := by
  have hb31 : b < 2 ^ 31 := (Nat.le_mul_of_pos_right b (Nat.two_pow_pos _)).trans_lt h
  have hblk : i32 (b : ℤ) = b := i32_of_lt (by omega) (by exact_mod_cast hb31)
  have h64 : fs.sector64 b = fs.firstSector b := by
    unfold sector64 firstSector
    rw [hblk]
    push_cast
    rfl
  refine ⟨h64, ?_⟩
  unfold sector32
  rw [h64]
  exact i32_of_lt (Int.natCast_nonneg _) (by unfold firstSector; exact_mod_cast h)

theorem SbImage.firstSector_inj {b b' : ℕ} (h : fs.firstSector b = fs.firstSector b') : b = b' := by
  unfold firstSector at h
  exact Nat.eq_of_mul_eq_mul_right (Nat.two_pow_pos _) (by exact_mod_cast h)

theorem SbImage.firstSector_ne (b : ℕ) : fs.firstSector b ≠ -1 := by
  unfold firstSector
  omega

/-- The pool as the calls find it: coherent, each buffer at the sector of its block, and in use while
somebody has it. -/
structure Sound (fs : SbImage) (s : DataPool D) : Prop extends Coherent fs s where
  nodup : s.pool.order.Nodup
  at_place : ∀ n, ∀ b ∈ (s.pool.buf n).user, (s.pool.buf n).b_bno = fs.firstSector b
  fresh : ∀ n, (s.pool.buf n).user = none → (s.pool.buf n).b_bno = -1 ∧ (s.pool.buf n).b_dirty = false
  inuse : ∀ h, ∀ r ∈ s.held h, (s.pool.buf r.1).b_inuse = true

theorem start_sound (bufcnt : ℕ) (disk : ℤ → D) : Sound fs (.start fs bufcnt disk) where
  sole _ _ _ _ _ hb := nomatch hb
  seen _ _ _ hb := nomatch hb
  kept _ _ := rfl
  held _ _ hr := nomatch hr
  nodup := List.nodup_reverse.2 List.nodup_range
  at_place _ _ hb := nomatch hb
  fresh _ _ := ⟨rfl, rfl⟩
  inuse _ _ hr := nomatch hr

namespace Sound

/-- A buffer is looked up by the sector of its block. -/
theorem user_of_sector (h : Sound fs s) {n b : ℕ} (hno : (s.pool.buf n).b_bno = fs.firstSector b) : b ∈ (s.pool.buf n).user := by
  cases huser : (s.pool.buf n).user with
  | none => exact absurd ((h.fresh n huser).1.symm.trans hno).symm (fs.firstSector_ne b)
  | some c =>
    have hc := h.at_place n c huser
    exact congrArg some (SbImage.firstSector_inj (hc.symm.trans hno))

/-- What a buffer holds, whom it was taken for and whether it is dirty stay; there may be fewer users. -/
theorem congr (h : Sound fs s) (horder : t.pool.order.Perm s.pool.order)
    (hbuf : ∀ m, (t.pool.buf m).user = (s.pool.buf m).user ∧
      (t.pool.buf m).b_bno = (s.pool.buf m).b_bno ∧ (t.pool.buf m).b_dirty = (s.pool.buf m).b_dirty)
    (hdata : t.data = s.data) (hdisk : t.disk = s.disk) (hlast : t.last = s.last)
    (hheld : ∀ x, ∀ r ∈ t.held x, r ∈ s.held x)
    (hinuse : ∀ x, ∀ r ∈ t.held x, (t.pool.buf r.1).b_inuse = true) : Sound fs t where
  sole n hn m hm b hb hb' := h.sole n (horder.mem_iff.1 hn) m (horder.mem_iff.1 hm) b
    ((hbuf n).1 ▸ hb) ((hbuf m).1 ▸ hb')
  seen n hn b hb := by
    rw [hdata, hlast]
    exact h.seen n (horder.mem_iff.1 hn) b ((hbuf n).1 ▸ hb)
  kept b hall := by
    rw [hdisk, hlast]
    exact h.kept b fun m hm hb =>
      (hbuf m).2.2 ▸ hall m (horder.mem_iff.2 hm) ((hbuf m).1.symm ▸ hb)
  held x r hr := by
    rw [horder.mem_iff, (hbuf r.1).1]
    exact h.held x r (hheld x r hr)
  nodup := horder.nodup_iff.2 h.nodup
  at_place n b hb := (hbuf n).2.1.trans (h.at_place n b ((hbuf n).1 ▸ hb))
  fresh n hn := by
    obtain ⟨hno, hclean⟩ := h.fresh n ((hbuf n).1 ▸ hn)
    exact ⟨(hbuf n).2.1.trans hno, (hbuf n).2.2.trans hclean⟩
  inuse := hinuse

/-- The users but one. -/
theorem mem_drop {x y : Holder} {r : ℕ × ℕ} (hr : r ∈ Function.update s.held x none y) :
    y ≠ x ∧ r ∈ s.held y := by
  rw [Function.update_apply] at hr
  split at hr
  · exact nomatch hr
  · next hy => exact ⟨hy, hr⟩

/-- A variable no longer has its buffer. -/
theorem drop (h : Sound fs s) (x : Holder) :
    Sound fs { s with held := Function.update s.held x none } :=
  h.congr (List.Perm.refl _) (fun _ => ⟨rfl, rfl, rfl⟩) rfl rfl rfl (fun _ _ hr => (mem_drop hr).2)
    fun y r hr => h.inuse y r (mem_drop hr).2

/-- A variable gets a buffer that is in use. -/
theorem hold (h : Sound fs s) (x : Holder) {n b : ℕ} (hn : n ∈ s.pool.order)
    (hb : b ∈ (s.pool.buf n).user) (hin : (s.pool.buf n).b_inuse = true) :
    Sound fs { s with held := Function.update s.held x (some (n, b)) } := by
  have hof : ∀ y, ∀ r ∈ Function.update s.held x (some (n, b)) y, r = (n, b) ∨ r ∈ s.held y := by
    intro y r hr
    rw [Function.update_apply] at hr
    split at hr
    · exact Or.inl (Option.some.inj hr).symm
    · exact Or.inr hr
  exact { h with
    held := fun y r hr => by
      rcases hof y r hr with rfl | hr
      · exact ⟨hn, hb⟩
      · exact h.held y r hr
    inuse := fun y r hr => by
      rcases hof y r hr with rfl | hr
      · exact hin
      · exact h.inuse y r hr }

/-! A flush leaves all but the flag. -/

theorem flush_buf (h : Sound fs s) (n : ℕ) :
    (s.flush n).pool.buf = Function.update s.pool.buf n { s.pool.buf n with b_dirty := false } := by
  show (s.pool.flush n).buf = _
  unfold BufPool.flush
  by_cases hd : (s.pool.buf n).b_dirty = true
  · rw [if_pos hd]
    cases huser : (s.pool.buf n).user with
    | none => exact absurd ((h.fresh n huser).2.symm.trans hd) (by decide)
    | some b => rfl
  · rw [if_neg hd]
    have hsame : { s.pool.buf n with b_dirty := false } = s.pool.buf n := by
      rw [← Bool.eq_false_of_not_eq_true hd]
    rw [hsame, Function.update_eq_self]

theorem flush_order (n : ℕ) : (s.flush n).pool.order = s.pool.order := by
  show (s.pool.flush n).order = _
  unfold BufPool.flush
  split
  · cases (s.pool.buf n).user <;> rfl
  · rfl

/-- What a buffer has after a flush. -/
theorem flush_fields (h : Sound fs s) (n m : ℕ) :
    ((s.flush n).pool.buf m).user = (s.pool.buf m).user ∧
      ((s.flush n).pool.buf m).b_bno = (s.pool.buf m).b_bno ∧
      ((s.flush n).pool.buf m).b_inuse = (s.pool.buf m).b_inuse ∧
      ((s.flush n).pool.buf m).b_dirty = (if m = n then false else (s.pool.buf m).b_dirty) := by
  rw [h.flush_buf n, Function.update_apply]
  by_cases hm : m = n
  · subst hm
    rw [if_pos rfl, if_pos rfl]
    exact ⟨rfl, rfl, rfl, rfl⟩
  · rw [if_neg hm, if_neg hm]
    exact ⟨rfl, rfl, rfl, rfl⟩

/-- **A flush** writes what was stored last. -/
theorem flush (h : Sound fs s) {n : ℕ} (hn : n ∈ s.pool.order) : Sound fs (s.flush n) := by
  have huser : ∀ m, ((s.flush n).pool.buf m).user = (s.pool.buf m).user := fun m =>
    (h.flush_fields n m).1
  have horder : (s.flush n).pool.order = s.pool.order := flush_order n
  refine ⟨⟨?_, ?_, ?_, ?_⟩, ?_, ?_, ?_, ?_⟩
  · intro a ha c hc b hb hb'
    rw [horder] at ha hc
    rw [huser] at hb hb'
    exact h.sole a ha c hc b hb hb'
  · intro a ha b hb
    rw [horder] at ha
    rw [huser] at hb
    exact h.seen a ha b hb
  · intro b hall
    rw [horder] at hall
    -- the others are as dirty as before
    have hothers : ∀ m ∈ s.pool.order, m ≠ n → b ∈ (s.pool.buf m).user →
        (s.pool.buf m).b_dirty = false := by
      intro m hm hne hb
      have hclean := hall m hm (by rwa [huser])
      rwa [(h.flush_fields n m).2.2.2, if_neg hne] at hclean
    show (if (s.pool.buf n).b_dirty then Function.update s.disk (s.pool.buf n).b_bno (s.data n)
      else s.disk) (fs.firstSector b) = s.last b
    by_cases hd : (s.pool.buf n).b_dirty = true
    · rw [if_pos hd]
      by_cases hno : fs.firstSector b = (s.pool.buf n).b_bno
      · rw [← hno, Function.update_self]
        exact h.seen n hn b (h.user_of_sector hno.symm)
      · rw [Function.update_of_ne hno]
        refine h.kept b fun m hm hb => hothers m hm ?_ hb
        rintro rfl
        exact hno (h.at_place m b hb).symm
    · rw [if_neg hd]
      refine h.kept b fun m hm hb => ?_
      by_cases hmn : m = n
      · rw [hmn]
        exact Bool.eq_false_of_not_eq_true hd
      · exact hothers m hm hmn hb
  · intro x r hr
    rw [horder, huser]
    exact h.held x r hr
  · rw [horder]
    exact h.nodup
  · intro m b hb
    rw [huser] at hb
    rw [(h.flush_fields n m).2.1]
    exact h.at_place m b hb
  · intro m hm
    rw [huser] at hm
    rw [(h.flush_fields n m).2.1, (h.flush_fields n m).2.2.2]
    refine ⟨(h.fresh m hm).1, ?_⟩
    split
    · rfl
    · exact (h.fresh m hm).2
  · intro x r hr
    rw [(h.flush_fields n r.1).2.2.1]
    exact h.inuse x r hr

/-- A buffer that is turned to another block is written first. -/
theorem getblk_pool (h : Sound fs s) {n blk : ℕ} (hmiss : (s.pool.buf n).b_bno ≠ fs.sector32 blk) :
    s.getblk fs n blk = { s.flush n with
      pool := s.pool.getblk fs n blk
      data := Function.update s.data n ((s.flush n).disk (fs.sector32 blk)) } ∧
    (s.getblk fs n blk).pool.order = s.pool.order ∧
    (s.getblk fs n blk).pool.buf n =
      { (s.flush n).pool.buf n with b_bno := fs.sector32 blk, user := some blk } ∧
    (∀ m, m ≠ n → (s.getblk fs n blk).pool.buf m = (s.flush n).pool.buf m) ∧
    ∀ m, m ≠ n → ((s.getblk fs n blk).pool.buf m).user = (s.pool.buf m).user := by
  have hpool : s.pool.getblk fs n blk = ((s.flush n).pool.access blk (fs.sector32 blk)).setBuf n
      { (s.flush n).pool.buf n with b_bno := fs.sector32 blk, user := some blk } := if_pos hmiss
  have hget : s.getblk fs n blk = { s.flush n with
      pool := s.pool.getblk fs n blk
      data := Function.update s.data n ((s.flush n).disk (fs.sector32 blk)) } := if_pos hmiss
  have hother : ∀ m, m ≠ n → (s.getblk fs n blk).pool.buf m = (s.flush n).pool.buf m := by
    intro m hm
    rw [hget, hpool]
    exact Function.update_of_ne hm ..
  refine ⟨hget, ?_, ?_, hother, fun m hm => ?_⟩
  · rw [hget, hpool]
    exact flush_order n
  · rw [hget, hpool]
    exact Function.update_self ..
  · rw [hother m hm, (h.flush_fields n m).1]

/-- A pool `t` whose buffer `n` was turned to a block, and read. -/
structure Turned (fs : SbImage) (s t : DataPool D) (n blk : ℕ) : Prop where
  order : t.pool.order = s.pool.order
  user_self : ∀ b, b ∈ (t.pool.buf n).user ↔ blk = b
  user : ∀ m, m ≠ n → (t.pool.buf m).user = (s.pool.buf m).user
  data_self : t.data n = s.last blk
  data : ∀ m, m ≠ n → t.data m = s.data m
  disk_self : t.disk (fs.firstSector blk) = s.last blk
  last : t.last = s.last
  held : t.held = s.held

/-- `getblk` turns a buffer to a block that no buffer holds. -/
theorem getblk_turned (h : Sound fs s) {n blk : ℕ} (hn : n ∈ s.pool.order) (hblk : fs.Small blk)
    (hmiss : (s.pool.buf n).b_bno ≠ fs.sector32 blk)
    (hnone : ∀ m ∈ s.pool.order, blk ∉ (s.pool.buf m).user) :
    Turned fs s (s.getblk fs n blk) n blk := by
  obtain ⟨hget, horder, hself, hother, huser⟩ := h.getblk_pool hmiss
  have hread : (s.flush n).disk (fs.firstSector blk) = s.last blk := by
    refine (h.flush hn).kept blk fun m hm hb => ?_
    rw [flush_order n] at hm
    rw [(h.flush_fields n m).1] at hb
    exact absurd hb (hnone m hm)
  refine ⟨horder, fun b => ?_, huser, ?_, fun m hm => ?_, ?_, ?_, ?_⟩
  · rw [hself]
    exact Option.some_inj
  · rw [hget, hblk.sector.2]
    exact (Function.update_self ..).trans hread
  · rw [hget]
    exact Function.update_of_ne hm ..
  · rw [hget]
    exact hread
  · rw [hget]
    rfl
  · rw [hget]
    rfl

/-- Such a pool is coherent, if the other blocks without a dirty buffer are on the disk. -/
theorem Turned.coherent {n blk : ℕ} (ht : Turned fs s t n blk) (h : Sound fs s)
    (hfree : ∀ x, ∀ r ∈ s.held x, r.1 ≠ n) (hnone : ∀ m ∈ s.pool.order, blk ∉ (s.pool.buf m).user)
    (hkept : ∀ b, b ≠ blk → (∀ m ∈ s.pool.order, b ∈ (t.pool.buf m).user →
      (t.pool.buf m).b_dirty = false) → t.disk (fs.firstSector b) = s.last b) : Coherent fs t where
  sole a ha c hc b hb hb' := by
    rw [ht.order] at ha hc
    by_cases han : a = n <;> by_cases hcn : c = n
    · rw [han, hcn]
    · subst han
      rw [ht.user c hcn, ← (ht.user_self b).1 hb] at hb'
      exact absurd hb' (hnone c hc)
    · subst hcn
      rw [ht.user a han, ← (ht.user_self b).1 hb'] at hb
      exact absurd hb (hnone a ha)
    · rw [ht.user a han] at hb
      rw [ht.user c hcn] at hb'
      exact h.sole a ha c hc b hb hb'
  seen a ha b hb := by
    rw [ht.order] at ha
    rw [ht.last]
    by_cases han : a = n
    · subst han
      rw [ht.data_self, (ht.user_self b).1 hb]
    · rw [ht.user a han] at hb
      rw [ht.data a han]
      exact h.seen a ha b hb
  kept b hall := by
    rw [ht.order] at hall
    rw [ht.last]
    by_cases hb : b = blk
    · rw [hb]
      exact ht.disk_self
    · exact hkept b hb hall
  held x r hr := by
    rw [ht.held] at hr
    rw [ht.order, ht.user r.1 (hfree x r hr)]
    exact h.held x r hr

/-- **A buffer is turned to a block** that no buffer holds, while nobody has it. -/
theorem getblk (h : Sound fs s) {n blk : ℕ} (hn : n ∈ s.pool.order) (hblk : fs.Small blk)
    (hfree : ∀ x, ∀ r ∈ s.held x, r.1 ≠ n) (hnone : ∀ m ∈ s.pool.order, blk ∉ (s.pool.buf m).user) :
    Sound fs (s.getblk fs n blk) ∧ (s.getblk fs n blk).pool.order = s.pool.order ∧
      blk ∈ ((s.getblk fs n blk).pool.buf n).user ∧
      ((s.getblk fs n blk).pool.buf n).b_inuse = (s.pool.buf n).b_inuse := by
  have hsector := hblk.sector.2
  have hmiss : (s.pool.buf n).b_bno ≠ fs.sector32 blk := by
    rw [hsector]
    exact fun hno => hnone n hn (h.user_of_sector hno)
  have hf := h.flush hn
  have ht := h.getblk_turned hn hblk hmiss hnone
  obtain ⟨hget, horder, hself, hother, huser⟩ := h.getblk_pool hmiss
  have hcoherent : Coherent fs (s.getblk fs n blk) := by
    refine ht.coherent h hfree hnone fun b hb hall => ?_
    rw [hget]
    refine hf.kept b fun m hm hbm => ?_
    rw [flush_order n] at hm
    by_cases hmn : m = n
    · subst hmn
      rw [(h.flush_fields m m).2.2.2, if_pos rfl]
    · have hclean := hall m hm (by rwa [hother m hmn])
      rwa [hother m hmn] at hclean
  refine ⟨⟨hcoherent, ?_, ?_, ?_, ?_⟩, horder, (ht.user_self blk).2 rfl, ?_⟩
  · rw [horder]
    exact h.nodup
  · intro m b hb
    by_cases hmn : m = n
    · subst hmn
      rw [← (ht.user_self b).1 hb, hself]
      dsimp only
      exact hsector
    · rw [hother m hmn] at hb ⊢
      exact hf.at_place m b hb
  · intro m hm
    by_cases hmn : m = n
    · subst hmn
      rw [hself] at hm
      exact nomatch hm
    · rw [hother m hmn] at hm ⊢
      exact hf.fresh m hm
  · intro x r hr
    rw [ht.held] at hr
    rw [hother r.1 (hfree x r hr)]
    exact hf.inuse x r hr
  · rw [hself]
    exact (h.flush_fields n n).2.2.1

/-- A buffer that holds the block is put first and handed out. -/
theorem found (h : Sound fs s) {n blk : ℕ} (hn : n ∈ s.pool.order)
    (hblk : blk ∈ (s.pool.buf n).user) :
    Sound fs (s.found n blk) ∧ n ∈ (s.found n blk).pool.order ∧
      blk ∈ ((s.found n blk).pool.buf n).user ∧ ((s.found n blk).pool.buf n).b_inuse = true := by
  have hperm : (s.found n blk).pool.order.Perm s.pool.order := (List.perm_cons_erase hn).symm
  have hfound : ∀ m, ((s.found n blk).pool.buf m).user = (s.pool.buf m).user ∧
      ((s.found n blk).pool.buf m).b_bno = (s.pool.buf m).b_bno ∧
      ((s.found n blk).pool.buf m).b_dirty = (s.pool.buf m).b_dirty ∧
      ((s.found n blk).pool.buf m).b_inuse = (if m = n then true else (s.pool.buf m).b_inuse) := by
    intro m
    show (Function.update s.pool.buf n _ m).user = _ ∧ (Function.update s.pool.buf n _ m).b_bno = _ ∧
      (Function.update s.pool.buf n _ m).b_dirty = _ ∧ (Function.update s.pool.buf n _ m).b_inuse = _
    rw [Function.update_apply]
    split
    · next hm =>
      rw [hm]
      exact ⟨hblk.symm, rfl, rfl, rfl⟩
    · exact ⟨rfl, rfl, rfl, rfl⟩
  refine ⟨h.congr hperm (fun m => ⟨(hfound m).1, (hfound m).2.1, (hfound m).2.2.1⟩) rfl rfl rfl
    (fun _ _ hr => hr) fun x r hr => ?_, hperm.mem_iff.2 hn, ?_, ?_⟩
  · rw [(hfound r.1).2.2.2]
    split
    · rfl
    · exact h.inuse x r hr
  · rw [(hfound n).1]
    exact hblk
  · rw [(hfound n).2.2.2, if_pos rfl]

/-- **`getdatablk`** hands out a buffer of the block, in use. -/
theorem getdatablk (h : Sound fs s) {n blk : ℕ} (hblk : fs.Small blk)
    (hget : s.getdatablk fs blk = some (n, t)) :
    Sound fs t ∧ n ∈ t.pool.order ∧ blk ∈ (t.pool.buf n).user ∧ (t.pool.buf n).b_inuse = true := by
  have hsector := hblk.sector.1
  unfold DataPool.getdatablk at hget
  cases hfind : s.pool.order.find? fun n => (s.pool.buf n).b_bno = fs.sector64 blk with
  | some m =>
    rw [hfind] at hget
    obtain ⟨rfl, rfl⟩ : m = n ∧ s.found m blk = t := by simpa using hget
    have hno : (s.pool.buf m).b_bno = fs.sector64 blk := by simpa using List.find?_some hfind
    exact h.found (List.mem_of_find?_eq_some hfind) (h.user_of_sector (hno.trans hsector))
  | none =>
    rw [hfind] at hget
    obtain ⟨m, hm, heq⟩ := Option.map_eq_some_iff.1 hget
    obtain ⟨rfl, rfl⟩ := Prod.mk.inj heq
    have hmem : m ∈ s.pool.order := List.mem_reverse.1 (List.mem_of_find?_eq_some hm)
    have hidle : (s.pool.buf m).b_inuse = false := by simpa using List.find?_some hm
    -- nobody has a buffer that is not in use
    have hfree : ∀ x, ∀ r ∈ s.held x, r.1 ≠ m := by
      rintro x r hr rfl
      rw [h.inuse x r hr] at hidle
      exact absurd hidle (by decide)
    have hnone : ∀ k ∈ s.pool.order, blk ∉ (s.pool.buf k).user := by
      intro k hk hb
      have hnot := List.find?_eq_none.1 hfind k hk
      rw [h.at_place k blk hb, hsector] at hnot
      exact hnot (by simp)
    obtain ⟨hs, horder, huser, -⟩ := h.getblk hmem hblk hfree hnone
    exact hs.found (horder ▸ hmem) huser

/-- A variable takes a block. -/
theorem take (h : Sound fs s) {x : Holder} {blk : ℕ} (hblk : fs.Small blk)
    (ht : s.take fs x blk = some t) : Sound fs t := by
  obtain ⟨⟨n, u⟩, hget, rfl⟩ := Option.map_eq_some_iff.1 ht
  obtain ⟨hu, hn, hb, hin⟩ := h.getdatablk hblk hget
  exact hu.hold x hn hb hin

/-- A variable lets go of a buffer that nobody else has. -/
theorem letGo (h : Sound fs s) {x : Holder} (halone : s.Alone x) : Sound fs (s.letGo x) := by
  unfold DataPool.letGo
  cases hx : s.held x with
  | none => exact h
  | some r =>
    obtain ⟨n, b⟩ := r
    refine h.congr (List.Perm.refl _) (fun m => ?_) rfl rfl rfl (fun y r hr => (mem_drop hr).2) ?_
    · show (Function.update s.pool.buf n _ m).user = _ ∧ (Function.update s.pool.buf n _ m).b_bno = _ ∧
        (Function.update s.pool.buf n _ m).b_dirty = _
      rw [Function.update_apply]
      split
      · next hm =>
        rw [hm]
        exact ⟨rfl, rfl, rfl⟩
      · exact ⟨rfl, rfl, rfl⟩
    · intro y r hr
      obtain ⟨hy, hr⟩ := mem_drop hr
      -- the flag of another one stays
      have hne : r.1 ≠ n := fun heq => hy (halone (n, b) hx y r hr heq)
      exact (congrArg PoolBuf.b_inuse (Function.update_of_ne hne ..)).trans (h.inuse y r hr)

/-- **`pass5`** turns its buffer to another block. -/
theorem retarget (h : Sound fs s) {x : Holder} {n b blk : ℕ} (hx : s.held x = some (n, b))
    (hblk : fs.Small blk)
    (hcare : b ≠ blk → s.Alone x ∧ ∀ m ∈ s.pool.order, blk ∉ (s.pool.buf m).user) :
    Sound fs (s.retarget fs x n blk) := by
  obtain ⟨hn, hb⟩ := h.held x (n, b) hx
  have hin := h.inuse x (n, b) hx
  by_cases heq : b = blk
  · -- it is there already
    subst heq
    have hno : (s.pool.buf n).b_bno = fs.sector32 b := (h.at_place n b hb).trans hblk.sector.2.symm
    have hpool : s.pool.getblk fs n b = s.pool := by
      have hsame : { s.pool.buf n with user := some b } = s.pool.buf n := by
        rw [← (hb : (s.pool.buf n).user = some b)]
      refine (if_neg (not_not.2 hno)).trans ?_
      rw [hsame]
      show { s.pool with buf := Function.update s.pool.buf n (s.pool.buf n) } = s.pool
      rw [Function.update_eq_self]
    have hget : s.getblk fs n b = s := by
      refine (if_neg (not_not.2 hno)).trans ?_
      rw [hpool]
    unfold DataPool.retarget
    rw [hget]
    exact h.hold x hn hb hin
  · obtain ⟨halone, hnone⟩ := hcare heq
    have hfree : ∀ y, ∀ r ∈ Function.update s.held x none y, r.1 ≠ n := by
      intro y r hr hrn
      obtain ⟨hy, hr⟩ := mem_drop hr
      exact hy (halone (n, b) hx y r hr hrn)
    have hsame : (({ s with held := Function.update s.held x none } : DataPool D).getblk fs n blk) =
        { s.getblk fs n blk with held := Function.update s.held x none } := by
      unfold DataPool.getblk
      split <;> rfl
    obtain ⟨hs, horder, huser, hflag⟩ := (h.drop x).getblk hn hblk hfree hnone
    rw [hsame] at hs horder huser hflag
    have hhold := hs.hold x (horder.symm ▸ hn) huser (hflag.trans hin)
    have hupd : Function.update (Function.update s.held x none) x (some (n, blk)) =
        Function.update s.held x (some (n, blk)) := Function.update_idem ..
    unfold DataPool.retarget
    rw [← hupd]
    exact hhold

/-- Contents are stored in a buffer that somebody has. -/
theorem store (h : Sound fs s) {x : Holder} {r : ℕ × ℕ} (hx : r ∈ s.held x) (d : D) :
    Sound fs (s.store r.1 r.2 d) := by
  obtain ⟨n, b⟩ := r
  obtain ⟨hn, hb⟩ := h.held x (n, b) hx
  dsimp only at hn hb
  have hbuf : ∀ m, ((s.store n b d).pool.buf m).user = (s.pool.buf m).user ∧
      ((s.store n b d).pool.buf m).b_bno = (s.pool.buf m).b_bno ∧
      ((s.store n b d).pool.buf m).b_inuse = (s.pool.buf m).b_inuse ∧
      ((s.store n b d).pool.buf m).b_dirty = (if m = n then true else (s.pool.buf m).b_dirty) := by
    intro m
    show (Function.update s.pool.buf n _ m).user = _ ∧ (Function.update s.pool.buf n _ m).b_bno = _ ∧
      (Function.update s.pool.buf n _ m).b_inuse = _ ∧ (Function.update s.pool.buf n _ m).b_dirty = _
    rw [Function.update_apply]
    split
    · next hm =>
      rw [hm]
      exact ⟨rfl, rfl, rfl, rfl⟩
    · exact ⟨rfl, rfl, rfl, rfl⟩
  refine ⟨⟨fun a ha c hc e he he' => ?_, fun a ha e he => ?_, fun e hall => ?_, fun y r hr => ?_⟩,
    h.nodup, fun m e he => ?_, fun m hm => ?_, fun y r hr => ?_⟩
  · exact h.sole a ha c hc e ((hbuf a).1 ▸ he) ((hbuf c).1 ▸ he')
  · rw [(hbuf a).1] at he
    show Function.update s.data n d a = Function.update s.last b d e
    by_cases ha' : a = n
    · subst ha'
      obtain rfl : b = e := Option.some.inj (hb.symm.trans he)
      rw [Function.update_self, Function.update_self]
    · -- another buffer holds another block
      have hne : e ≠ b := by
        rintro rfl
        exact ha' (h.sole a ha n hn e he hb)
      rw [Function.update_of_ne ha', Function.update_of_ne hne]
      exact h.seen a ha e he
  · show s.disk (fs.firstSector e) = Function.update s.last b d e
    by_cases hne : e = b
    · subst hne
      have hclean := hall n hn ((hbuf n).1.symm ▸ hb)
      rw [(hbuf n).2.2.2, if_pos rfl] at hclean
      exact absurd hclean (by decide)
    · rw [Function.update_of_ne hne]
      refine h.kept e fun m hm he => ?_
      have hclean := hall m hm ((hbuf m).1.symm ▸ he)
      rw [(hbuf m).2.2.2] at hclean
      split at hclean
      · exact absurd hclean (by decide)
      · exact hclean
  · rw [(hbuf r.1).1]
    exact h.held y r hr
  · rw [(hbuf m).2.1]
    exact h.at_place m e ((hbuf m).1 ▸ he)
  · rw [(hbuf m).1] at hm
    rw [(hbuf m).2.1, (hbuf m).2.2.2]
    have hne : m ≠ n := by
      rintro rfl
      rw [hb] at hm
      exact nomatch hm
    rw [if_neg hne]
    exact h.fresh m hm
  · rw [(hbuf r.1).2.2.1]
    exact h.inuse y r hr

theorem flushAll (h : Sound fs s) {ns : List ℕ} (hns : ∀ n ∈ ns, n ∈ s.pool.order) :
    Sound fs (DataPool.flushAll ns s) := by
  induction ns generalizing s with
  | nil => exact h
  | cons n ns ih =>
    refine ih (h.flush (hns n List.mem_cons_self)) fun m hm => ?_
    rw [flush_order]
    exact hns m (List.mem_cons_of_mem n hm)

theorem flushAll_order (ns : List ℕ) : (DataPool.flushAll ns s).pool.order = s.pool.order := by
  induction ns generalizing s with
  | nil => rfl
  | cons n ns ih => exact ih.trans (flush_order n)

/-- What was flushed is clean, and stays so. -/
theorem flushAll_clean (h : Sound fs s) {ns : List ℕ} (hns : ∀ n ∈ ns, n ∈ s.pool.order) {m : ℕ}
    (hm : m ∈ ns ∨ (s.pool.buf m).b_dirty = false) :
    ((DataPool.flushAll ns s).pool.buf m).b_dirty = false := by
  induction ns generalizing s with
  | nil => exact hm.resolve_left List.not_mem_nil
  | cons n ns ih =>
    refine ih (h.flush (hns n List.mem_cons_self)) (fun k hk => ?_) ?_
    · rw [flush_order]
      exact hns k (List.mem_cons_of_mem n hk)
    · rw [(h.flush_fields n m).2.2.2]
      by_cases hmn : m = n
      · rw [if_pos hmn]
        exact Or.inr rfl
      · rw [if_neg hmn]
        exact hm.imp_left fun hin => (List.mem_cons.1 hin).resolve_left hmn

/-- **At the end** everything is on the disk. -/
theorem ckfini (h : Sound fs s) : Sound fs s.ckfini := by
  have hns : ∀ n ∈ s.pool.order.reverse, n ∈ s.pool.order := fun n => List.mem_reverse.1
  have ht := h.flushAll hns
  refine ⟨⟨fun n hn => (List.not_mem_nil hn).elim, fun n hn => (List.not_mem_nil hn).elim,
    fun b _ => ht.kept b fun n hn _ => ?_, fun x r hr => nomatch hr⟩, List.nodup_nil, ht.at_place,
    ht.fresh, fun x r hr => nomatch hr⟩
  rw [flushAll_order] at hn
  exact h.flushAll_clean hns (Or.inl (List.mem_reverse.2 hn))

/-- **One careful call** keeps the pool in order. -/
theorem run (h : Sound fs s) {c : PoolCall D} (hc : Careful fs v s c) (ht : c.run fs v s = some t) :
    Sound fs t := by
  cases c with
  | getdatablk i blk => exact h.take hc ht
  | release i =>
    obtain rfl := Option.some.inj ht
    exact h.letGo hc
  | getdirblk blk => exact (h.letGo hc.2).take hc.1 ht
  | ginode i =>
    replace ht : (if ¬v.Valid i then none else if _ then _ else _) = some t := ht
    split_ifs at ht with hvalid helse
    · obtain ⟨hblk, halone⟩ := hc helse
      obtain ⟨u, hu, rfl⟩ := Option.map_eq_some_iff.1 ht
      have hsu := (h.letGo halone).take hblk hu
      exact { hsu with }
    · obtain ⟨-, -, rfl⟩ := Option.map_eq_some_iff.1 ht
      exact h
  | bitmap ino blk =>
    unfold PoolCall.run at ht
    dsimp only at ht
    cases hx : s.held (bitmapOf ino) with
    | none =>
      rw [hx] at ht
      exact h.take hc.1 ht
    | some r =>
      rw [hx] at ht
      obtain rfl := Option.some.inj ht
      exact h.retarget hx hc.1 (hc.2 r hx)
  | dirty x d =>
    obtain ⟨r, hr, rfl⟩ := Option.map_eq_some_iff.1 ht
    exact h.store hr d
  | flush n =>
    replace ht : (if n ∈ s.pool.order then some (s.flush n) else none) = some t := ht
    split_ifs at ht with hn
    obtain rfl := Option.some.inj ht
    exact h.flush hn
  | ckfini =>
    obtain rfl := Option.some.inj ht
    exact h.ckfini

end Sound

/-- So does a run. -/
theorem Reach.sound {bufcnt : ℕ} {disk : ℤ → D} (h : Reach fs v bufcnt disk s) : Sound fs s := by
  induction h with
  | start => exact start_sound bufcnt disk
  | step _ hc ht ih => exact ih.run hc ht

/-- **The pool is coherent** in every state of a run of careful calls. -/
theorem pool_coherent {bufcnt : ℕ} {disk : ℤ → D} (h : Reach fs v bufcnt disk s) : Coherent fs s :=
  h.sound.toCoherent

/-- **`pass5` has to be careful**: its `getblk` looks neither for the block nor for other users of the
buffer. -/
theorem retarget_coherent_iff (h : Sound fs s) {x : Holder} {n b blk : ℕ}
    (hx : s.held x = some (n, b)) (hblk : fs.Small blk) (hne : b ≠ blk) :
    Coherent fs (s.retarget fs x n blk) ↔
      s.Alone x ∧ ∀ m ∈ s.pool.order, blk ∉ (s.pool.buf m).user := by
  constructor
  swap
  · exact fun hcare => (h.retarget hx hblk fun _ => hcare).toCoherent
  intro hco
  obtain ⟨hn, hb⟩ := h.held x (n, b) hx
  have hmiss : (s.pool.buf n).b_bno ≠ fs.sector32 blk := by
    rw [hblk.sector.2, h.at_place n b hb]
    exact fun heq => hne (SbImage.firstSector_inj heq)
  obtain ⟨hget, horder, hself, -, huser⟩ := h.getblk_pool hmiss
  have hblkn : ((s.retarget fs x n blk).pool.buf n).user = some blk := by
    show ((s.getblk fs n blk).pool.buf n).user = some blk
    rw [hself]
  constructor
  · intro r hr y r' hr' heq
    obtain rfl : r = (n, b) := (Option.some.inj (hx.symm.trans hr)).symm
    by_contra hy
    -- the other one still takes the buffer for its own block
    have hheld : r' ∈ (s.retarget fs x n blk).held y := by
      show Function.update s.held x (some (n, blk)) y = some r'
      rw [Function.update_of_ne hy]
      exact hr'
    have hafter : r'.2 ∈ ((s.retarget fs x n blk).pool.buf r'.1).user := (hco.held y r' hheld).2
    have hbefore := (h.held y r' hr').2
    dsimp only at heq
    rw [heq, hblkn] at hafter
    rw [heq] at hbefore
    have hblk' : blk = r'.2 := Option.some.inj hafter
    have hb' : b = r'.2 := Option.some.inj ((hb : (s.pool.buf n).user = some b).symm.trans hbefore)
    exact hne (hb'.trans hblk'.symm)
  · intro m hm hbm
    have hmn : m ≠ n := by
      rintro rfl
      exact hne (Option.some.inj ((hb : (s.pool.buf m).user = some b).symm.trans hbm))
    refine hmn (hco.sole m (horder ▸ hm) n (horder ▸ hn) blk ?_ hblkn)
    show blk ∈ ((s.getblk fs n blk).pool.buf m).user
    rw [huser m hmn]
    exact hbm

end

/-! ### Two runs -/

/-- The calls, one after the other. -/
def runCalls (fs : SbImage) (v : Volume) {D : Type} (cs : List (PoolCall D)) (s : DataPool D) :
    Option (DataPool D) := cs.foldlM (fun s c => c.run fs v s) s

/-- The inode table of the small volume starts at the block 5. -/
def oneGroupTable : Volume := { smallVolume with
  ipg := 64
  ipg_pos := by decide }

/-- Its disk: every sector has its own number. -/
def numbered : DataPool ℕ := .start oneGroup 5 Int.natAbs

/-- Behind an inode a block of a directory is read, changed, written and given up. -/
theorem getdirblk_coherent : ∃ t, runCalls oneGroup oneGroupTable
    [.ginode 2, .getdirblk 40, .dirty .pdirbp 7, .flush 1, .ckfini] numbered = some t ∧
    t.disk (oneGroup.firstSector 40) = 7 ∧ Coherent oneGroup t := by
  have hrun : (runCalls oneGroup oneGroupTable [.ginode 2, .getdirblk 40, .dirty .pdirbp 7, .flush 1, .ckfini]
      numbered).map (fun t => t.disk (oneGroup.firstSector 40)) = some 7 := by decide +kernel
  obtain ⟨t, ht, hdisk⟩ := Option.map_eq_some_iff.1 hrun
  refine ⟨t, ht, hdisk, ?_⟩
  simp only [runCalls, List.foldlM_cons, List.foldlM_nil, Option.bind_eq_bind, Option.bind_eq_some_iff] at ht
  obtain ⟨s₁, h₁, s₂, h₂, s₃, h₃, s₄, h₄, s₅, h₅, hlast⟩ := ht
  obtain rfl := Option.some.inj hlast
  have hsmall : ∀ b ≤ 40, oneGroup.Small b := by
    unfold SbImage.Small
    decide +kernel
  have hfree : s₁.held .pdirbp = none := by
    have hmap : ((PoolCall.ginode 2).run oneGroup oneGroupTable numbered).map (fun s => s.held .pdirbp) =
        some none := by decide +kernel
    rw [h₁] at hmap
    exact Option.some.inj hmap
  have hginode : Careful oneGroup oneGroupTable numbered (.ginode 2) :=
    fun _ => ⟨hsmall _ (by decide +kernel), fun _ hr => nomatch hr⟩
  have hgetdirblk : Careful oneGroup oneGroupTable s₁ (.getdirblk 40) :=
    ⟨hsmall 40 le_rfl, fun r hr => by rw [hfree] at hr; cases hr⟩
  have hstart : Reach oneGroup oneGroupTable 5 Int.natAbs numbered := .start
  have hdirty := ((hstart.step hginode h₁).step hgetdirblk h₂).step (c := .dirty .pdirbp 7) trivial h₃
  exact pool_coherent ((hdirty.step (c := .flush 1) trivial h₄).step (c := .ckfini) trivial h₅)

/-- **The block of the root inode is lost.**  An indirect pointer names that block, and the walk over the
pointers releases it; five other blocks are read, and `pbp` points to one of them. -/
theorem pbp_retargeted : ∃ s, runCalls oneGroup oneGroupTable
    [.ginode 2, .getdatablk 0 5, .release 0, .getdatablk 0 20, .release 0, .getdatablk 0 21, .release 0,
      .getdatablk 0 22, .release 0, .getdatablk 0 23, .release 0, .getdatablk 0 24] numbered = some s ∧
    s.held .pbp = some (0, 5) ∧ (s.pool.buf 0).user = some 24 ∧ ¬Coherent oneGroup s := by
  have hrun : (runCalls oneGroup oneGroupTable
      [.ginode 2, .getdatablk 0 5, .release 0, .getdatablk 0 20, .release 0, .getdatablk 0 21, .release 0,
        .getdatablk 0 22, .release 0, .getdatablk 0 23, .release 0, .getdatablk 0 24] numbered).map
      (fun s => (s.held .pbp, (s.pool.buf 0).user)) = some (some (0, 5), some 24) := by decide +kernel
  obtain ⟨s, hs, heq⟩ := Option.map_eq_some_iff.1 hrun
  obtain ⟨hheld, huser⟩ := Prod.mk.inj heq
  refine ⟨s, hs, hheld, huser, fun hco => ?_⟩
  have hbuf := (hco.held .pbp (0, 5) hheld).2
  dsimp only at hbuf
  rw [huser] at hbuf
  exact absurd hbuf (by decide)

end Ext2fs.Fsck
