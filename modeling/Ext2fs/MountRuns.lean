import Ext2fs.CgUpdate
import Ext2fs.Lib.Runs

/-!
# The clean mark over mounts, syncs and unmounts

`E2FS_ISCLEAN` in the superblock on the device says that the volume needs no check.  `ext2_mountfs`
takes it away before the first change, `ext2_unmount` puts it back when everything has been written,
`ext2_sync` writes the superblock and the descriptor table in between.  Each single write may fail.

* `cgupdate_error_iff` — `ext2_cgupdate` reports no error although a descriptor block was not
  written, where only the last one's write counts;
* `mount_runs` — as long as the write of `ext2_mountfs` succeeds on a clean volume, no write of a sync
  fails and no failure is hidden at an unmount, a volume mounted for writing is not marked clean, and
  each single operation keeps its promise exactly when its writes meet the same condition.
-/

namespace Ext2fs

/-- Unmounted cleanly -/
def E2FS_ISCLEAN : BitVec 16 := 0x0001

/-- Errors detected -/
def E2FS_ERRORS : BitVec 16 := 0x0002

/-- Where the superblock has the two fields that mounting and syncing change. -/
structure SbLayout (D : Type) where
  /-- `e2fs_state` -/
  state : D → BitVec 16
  setState : BitVec 16 → D → D
  /-- stores `e2fs_wtime` -/
  setWtime : BitVec 32 → D → D
  state_setState : ∀ x d, state (setState x d) = x
  state_setWtime : ∀ t d, state (setWtime t d) = state d

/-- The part of the mount that the operations read and write. -/
structure MountCore (D : Type) where
  /-- `um_e2fs->e2fs`, the superblock in memory -/
  es : D
  /-- Group Descriptors -/
  gd : ℕ → D
  /-- mounted read-only flag -/
  ronly : Bool
  /-- super block modified flag -/
  fmod : Bool
  /-- valid at mount time -/
  wasvalid : Bool

/-- A device, and the volume mounted from it. -/
structure MountSys (D : Type) where
  disk : ℤ → D
  core : Option (MountCore D)
  /-- whether the superblock carried the clean mark when the volume was mounted -/
  cleanAtMount : Bool

/-! ### The operations -/

section Operations

variable {D : Type} (L : SbLayout D)

def SbLayout.isClean (sb : D) : Prop := L.state sb &&& E2FS_ISCLEAN ≠ 0

instance (sb : D) : Decidable (L.isClean sb) := inferInstanceAs (Decidable (_ ≠ _))

def SbLayout.hasErrors (sb : D) : Prop := L.state sb &&& E2FS_ERRORS ≠ 0

instance (sb : D) : Decidable (L.hasErrors sb) := inferInstanceAs (Decidable (_ ≠ _))

/-- The superblock of a volume that is about to be changed. -/
def SbLayout.setInvalid (sb : D) : D := L.setState (L.state sb &&& ~~~E2FS_ISCLEAN) sb

/-- The superblock of a volume that was valid, once everything has been written. -/
def SbLayout.setValid (sb : D) : D := L.setState (L.state sb ||| E2FS_ISCLEAN) sb

/-- `ext2_mountfs`.  `refused` is an error of the parts that write nothing: the read of the
superblock, its checks, the allocations. -/
def ext2Mountfs (ronly force : Bool) (refused : Option Errno) (w : BufWrite) (gd : ℕ → D)
    (disk : ℤ → D) : Except Errno (MountCore D) × (ℤ → D) :=
  match refused with
  | some e => (.error e, disk)
  | none =>
    let es := disk SBLOCK
    if (¬L.isClean es ∨ L.hasErrors es) ∧ ¬(ronly || force) then (.error .eperm, disk)
    else
      let wasvalid := decide (L.isClean es)
      if ronly then (.ok ⟨es, gd, true, false, wasvalid⟩, disk)
      else
        let es := L.setInvalid es
        -- the result of the write is not looked at
        (.ok ⟨es, gd, false, true, wasvalid⟩, (ext2Sbupdate true w es disk).2)

variable (fs : Geometry) (firstDblock : BitVec 32)

/-- The end of `ext2_sync`, after `ext2_cgupdate` returned `cg`. -/
def syncDone (inodes : Option Errno) (c : MountCore D) (es : D) (cg : Option Errno × (ℤ → D)) :
    Option Errno × MountCore D × (ℤ → D) :=
  (if cg.1 = none then inodes else cg.1, { c with fmod := false, es }, cg.2)

/-- `ext2_sync`.  `inodes` is the error that writing the inodes left in `sa_error`. -/
def ext2Sync (wait : Bool) (inodes : Option Errno) (now : BitVec 32) (w : BufWrite)
    (ws : ℕ → BufWrite) (c : MountCore D) (disk : ℤ → D) :
    Option Errno × MountCore D × (ℤ → D) :=
  if c.fmod ∧ c.ronly then (some .einval, c, disk)
  else if c.fmod then
    let es := L.setWtime now c.es
    syncDone inodes c es (ext2Cgupdate fs firstDblock wait w ws es c.gd disk)
  else (inodes, c, disk)

/-- The end of the writes of `ext2_unmount`, after `ext2_cgupdate` returned `cg`. -/
def unmountDone (w' : BufWrite) (c : MountCore D) (cg : Option Errno × (ℤ → D)) : ℤ → D :=
  if cg.1 = none then
    (ext2Sbupdate true w' (if c.wasvalid then L.setValid c.es else c.es) cg.2).2
  else cg.2

/-- The writes of `ext2_unmount`: `w` and `ws` are those of `ext2_cgupdate`, `w'` that of the
superblock after it. -/
def ext2UnmountWrites (w : BufWrite) (ws : ℕ → BufWrite) (w' : BufWrite) (c : MountCore D)
    (disk : ℤ → D) : ℤ → D :=
  if c.ronly then disk
  else unmountDone L w' c (ext2Cgupdate fs firstDblock true w ws c.es c.gd disk)

/-- The operations on a device and the volume mounted from it. -/
inductive MountOp (D : Type) where
  | mount (ronly force : Bool) (refused : Option Errno) (w : BufWrite) (gd : ℕ → D)
  | sync (wait : Bool) (inodes : Option Errno) (now : BitVec 32) (w : BufWrite) (ws : ℕ → BufWrite)
  /-- an allocation or a release changes the counts and marks the superblock modified -/
  | change (es : D) (gd : ℕ → D)
  /-- `busy` is the error of flushing the vnodes, which ends the unmount early -/
  | unmount (busy : Option Errno) (w : BufWrite) (ws : ℕ → BufWrite) (w' : BufWrite)

/-- One operation. -/
def mountStep (op : MountOp D) (s : MountSys D) : MountSys D :=
  match op, s.core with
  | .mount ronly force refused w gd, none =>
      let r := ext2Mountfs L ronly force refused w gd s.disk
      match r.1 with
      | .error _ => { s with disk := r.2 }
      | .ok c => ⟨r.2, some c, decide (L.isClean (s.disk SBLOCK))⟩
  | .sync wait inodes now w ws, some c =>
      let r := ext2Sync L fs firstDblock wait inodes now w ws c s.disk
      { s with core := some r.2.1, disk := r.2.2 }
  | .change es gd, some c =>
      { s with core := some { c with es := L.setState (L.state c.es) es, gd, fmod := true } }
  | .unmount none w ws w', some c =>
      { s with core := none, disk := ext2UnmountWrites L fs firstDblock w ws w' c s.disk }
  | _, _ => s

end Operations

section Accessors

variable {D : Type} (inodes : Option Errno) (c : MountCore D) (es : D)
  (cg : Option Errno × (ℤ → D))

@[simp] theorem syncDone_error : (syncDone inodes c es cg).1 = if cg.1 = none then inodes else cg.1 :=
  rfl

@[simp] theorem syncDone_es : (syncDone inodes c es cg).2.1.es = es := rfl

@[simp] theorem syncDone_fmod : (syncDone inodes c es cg).2.1.fmod = false := rfl

@[simp] theorem syncDone_ronly : (syncDone inodes c es cg).2.1.ronly = c.ronly := rfl

@[simp] theorem syncDone_wasvalid : (syncDone inodes c es cg).2.1.wasvalid = c.wasvalid := rfl

@[simp] theorem syncDone_disk : (syncDone inodes c es cg).2.2 = cg.2 := rfl

end Accessors

/-! ### What `ext2_cgupdate` reports -/

/-- A descriptor block is not written and `ext2_cgupdate` does not say so: the last block, whose
result is the one that counts, is written, and there was a buffer for each. -/
def Masked (n : ℕ) (ws : ℕ → BufWrite) : Prop :=
  (∃ i < n, ws i ≠ .ok) ∧ (∀ i < n, ws i ≠ .null) ∧ ws (n - 1) = .ok

section Report

variable {D : Type} {place : ℕ → ℤ} {gd : ℕ → D} {ws : ℕ → BufWrite}

/-- Waiting for a write that found its buffer reports its failure. -/
theorem error_eq_none_iff {w : BufWrite} (h : w ≠ .null) : w.error true = none ↔ w = .ok := by
  cases w with
  | null => exact absurd rfl h
  | ok => simp [BufWrite.error]
  | fail e => simp [BufWrite.error]

/-- The first block of a loop and the later ones. -/
theorem forall_range_succ {P : ℕ → Prop} {i rounds : ℕ} :
    (∀ j, i ≤ j → j < i + (rounds + 1) → P j) ↔
      P i ∧ ∀ j, i + 1 ≤ j → j < i + 1 + rounds → P j := by
  constructor
  · intro h
    exact ⟨h i le_rfl (by omega), fun j hj hj' => h j (by omega) (by omega)⟩
  · rintro ⟨h0, h⟩ j hj hj'
    by_cases hij : j = i
    · rwa [hij]
    · exact h j (by omega) (by omega)

/-- The loop adds an error to `allerror` where a block has no buffer. -/
theorem cgLoop_allerror (rounds i : ℕ) (error allerror : Option Errno) (disk : ℤ → D) :
    (cgLoop place true ws gd rounds i error allerror disk).2.1 = none ↔
      allerror = none ∧ ∀ j, i ≤ j → j < i + rounds → ws j ≠ .null := by
  induction rounds generalizing i error disk with
  | zero =>
    show allerror = none ↔ _
    constructor
    · intro h
      exact ⟨h, fun j hj hj' => by omega⟩
    · exact fun h => h.1
  | succ rounds ih =>
    rw [forall_range_succ]
    unfold cgLoop
    by_cases hnull : ws i = .null
    · simp [hnull]
    · simp only [hnull, if_false, ih, ne_eq, not_false_eq_true, true_and]

/-- Its `error` is the result of the last write. -/
theorem cgLoop_lastError (rounds i : ℕ) (error allerror : Option Errno) (disk : ℤ → D)
    (h : ∀ j, i ≤ j → j < i + rounds → ws j ≠ .null) :
    (cgLoop place true ws gd rounds i error allerror disk).1 = none ↔
      if rounds = 0 then error = none else ws (i + rounds - 1) = .ok := by
  induction rounds generalizing i error disk with
  | zero => exact Iff.rfl
  | succ rounds ih =>
    obtain ⟨hnull, hrest⟩ := forall_range_succ.1 h
    unfold cgLoop
    simp only [hnull, if_false, if_true]
    rw [ih _ _ _ hrest, if_neg (Nat.succ_ne_zero rounds)]
    by_cases h0 : rounds = 0
    · subst h0
      rw [if_pos rfl]
      exact error_eq_none_iff hnull
    · rw [if_neg h0, show i + 1 + rounds - 1 = i + (rounds + 1) - 1 by omega]

/-- **What no error of `ext2_cgupdate` means.**  The superblock was written, every descriptor block had
a buffer, and the last one was written. -/
theorem cgupdate_error_iff (fs : Geometry) (firstDblock : BitVec 32) (w : BufWrite) (sb : D)
    (disk : ℤ → D) :
    (ext2Cgupdate fs firstDblock true w ws sb gd disk).1 = none ↔
      w = .ok ∧ (∀ i < fs.descRounds, ws i ≠ .null) ∧
        (fs.descRounds = 0 ∨ ws (fs.descRounds - 1) = .ok) := by
  have hsb : (ext2Sbupdate true w sb disk).1 = none ↔ w = .ok := by
    unfold ext2Sbupdate
    by_cases hnull : w = .null
    · simp [hnull]
    · rw [if_neg hnull]
      exact error_eq_none_iff hnull
  rw [ext2Cgupdate, foldErrors_error]
  by_cases hall : w = .ok ∧ ∀ j, 0 ≤ j → j < 0 + fs.descRounds → ws j ≠ .null
  · obtain ⟨hw, hnull⟩ := hall
    have hnull' : ∀ i < fs.descRounds, ws i ≠ .null :=
      fun i hi => hnull i (Nat.zero_le _) (by rwa [Nat.zero_add])
    rw [if_pos ((cgLoop_allerror _ _ _ _ _).2 ⟨hsb.2 hw, hnull⟩), cgLoop_lastError _ _ _ _ _ hnull,
      Nat.zero_add]
    by_cases hn : fs.descRounds = 0
    · simp [hn, hw]
    · simp only [hn, if_false, hw, true_and, false_or]
      exact (and_iff_right hnull').symm
  · have hsome : ¬(cgLoop (fs.descWriteAt firstDblock) true ws gd fs.descRounds 0 none
        (ext2Sbupdate true w sb disk).1 (ext2Sbupdate true w sb disk).2).2.1 = none := by
      intro h
      obtain ⟨hw, hnull⟩ := (cgLoop_allerror _ _ _ _ _).1 h
      exact hall ⟨hsb.1 hw, hnull⟩
    rw [if_neg hsome]
    constructor
    · intro h
      exact absurd h hsome
    · rintro ⟨hw, hnull, -⟩
      exact absurd ⟨hw, fun j _ hj => hnull j (by rwa [Nat.zero_add] at hj)⟩ hall

end Report

/-! ### Promises, conditions and the invariant -/

section Runs

variable {D : Type} (L : SbLayout D) (fs : Geometry) (firstDblock : BitVec 32)

/-- A volume mounted for writing is not marked clean on the device. -/
def Unmarked (s : MountSys D) : Prop :=
  ∀ c, s.core = some c → c.ronly = false → ¬L.isClean (s.disk SBLOCK)

/-- All writes of a sync or an unmount succeed. -/
def AllWritten (w : BufWrite) (ws : ℕ → BufWrite) : Prop :=
  w = .ok ∧ ∀ i < fs.descRounds, ws i = .ok

/-- What an operation promises: the volume stays unmarked; a sync that loses a write reports it and
stays pending; an unmount marks the volume only if it was clean and everything was written. -/
def OpKeeps (op : MountOp D) (s : MountSys D) : Prop :=
  Unmarked L (mountStep L fs firstDblock op s) ∧
    match op, s.core with
    | .sync wait inodes now w ws, some c =>
        c.fmod = true → c.ronly = false → ¬AllWritten fs w ws →
          (ext2Sync L fs firstDblock wait inodes now w ws c s.disk).1 ≠ none ∧
            (ext2Sync L fs firstDblock wait inodes now w ws c s.disk).2.1.fmod = true
    | .unmount none w ws w', some c =>
        ¬L.isClean (s.disk SBLOCK) →
          L.isClean (ext2UnmountWrites L fs firstDblock w ws w' c s.disk SBLOCK) →
            s.cleanAtMount = true ∧ AllWritten fs w ws
    | _, _ => True

/-- The condition on the writes of an operation: the first write of a mount succeeds on a clean
volume; no write of a sync fails; an unmount that would mark the volume has no masked failure. -/
def WritesSafe (op : MountOp D) (s : MountSys D) : Prop :=
  match op, s.core with
  | .mount ronly force none w _, none =>
      ronly = false → L.isClean (s.disk SBLOCK) → (L.hasErrors (s.disk SBLOCK) → force = true) →
        w = .ok
  | .sync _ _ _ w ws, some c => c.fmod = true → c.ronly = false → AllWritten fs w ws
  | .unmount none w ws w', some c =>
      c.ronly = false → s.cleanAtMount = true → w = .ok → w' = .ok → ¬Masked fs.descRounds ws
  | _, _ => True

/-- The invariant: `e2fs_wasvalid` is the clean mark at mount, and neither the superblock in memory
nor the one on the device is marked while the volume is mounted for writing. -/
def MountInv (s : MountSys D) : Prop :=
  ∀ c, s.core = some c → c.wasvalid = s.cleanAtMount ∧
    (c.ronly = false → ¬L.isClean c.es ∧ ¬L.isClean (s.disk SBLOCK))

variable {L fs firstDblock}

theorem not_isClean_setInvalid (sb : D) : ¬L.isClean (L.setInvalid sb) := by
  unfold SbLayout.isClean SbLayout.setInvalid
  rw [L.state_setState, not_not, BitVec.and_assoc]
  have hmask : ~~~E2FS_ISCLEAN &&& E2FS_ISCLEAN = 0#16 := by decide
  rw [hmask, BitVec.and_zero]
  rfl

theorem isClean_setValid (sb : D) : L.isClean (L.setValid sb) := by
  unfold SbLayout.isClean SbLayout.setValid
  rw [L.state_setState]
  intro h
  have hbit := congrArg (fun x => x.getLsbD 0) h
  simp [E2FS_ISCLEAN] at hbit

theorem isClean_setWtime (now : BitVec 32) (sb : D) : L.isClean (L.setWtime now sb) ↔ L.isClean sb := by
  unfold SbLayout.isClean
  rw [L.state_setWtime]

theorem isClean_setState (sb sb' : D) : L.isClean (L.setState (L.state sb) sb') ↔ L.isClean sb := by
  unfold SbLayout.isClean
  rw [L.state_setState]

/-- What `ext2_sbupdate` leaves at the superblock's place. -/
theorem sbupdate_disk (wait : Bool) (w : BufWrite) (sb : D) (disk : ℤ → D) :
    (ext2Sbupdate wait w sb disk).2 SBLOCK = if w = .ok then sb else disk SBLOCK := by
  unfold ext2Sbupdate BufWrite.put
  by_cases hok : w = .ok
  · simp [hok]
  · by_cases hnull : w = .null <;> simp [hok, hnull]

variable (hplace : ∀ i < fs.descRounds, fs.descWriteAt firstDblock i ≠ SBLOCK)

include hplace

/-- What `ext2_cgupdate` leaves there, where no descriptor block is written over it. -/
theorem cgupdate_sblock (wait : Bool) (w : BufWrite) (ws : ℕ → BufWrite) (sb : D) (gd : ℕ → D)
    (disk : ℤ → D) :
    (ext2Cgupdate fs firstDblock wait w ws sb gd disk).2 SBLOCK =
      if w = .ok then sb else disk SBLOCK := by
  rw [cgupdate_disk, cgLoop_frame, sbupdate_disk]
  intro j _ hj
  rw [Nat.zero_add] at hj
  exact (hplace j hj).symm

omit hplace in
variable (L fs firstDblock) in
/-- A sync changes neither flag of the mount. -/
theorem sync_frame (wait : Bool) (inodes : Option Errno) (now : BitVec 32) (w : BufWrite)
    (ws : ℕ → BufWrite) (c : MountCore D) (disk : ℤ → D) :
    (ext2Sync L fs firstDblock wait inodes now w ws c disk).2.1.ronly = c.ronly ∧
      (ext2Sync L fs firstDblock wait inodes now w ws c disk).2.1.wasvalid = c.wasvalid := by
  rw [ext2Sync]
  split
  · exact ⟨rfl, rfl⟩
  · split
    · rw [syncDone_ronly, syncDone_wasvalid]
      exact ⟨rfl, rfl⟩
    · exact ⟨rfl, rfl⟩

/-- A sync keeps the volume unmarked. -/
theorem sync_unmarked {wait : Bool} {inodes : Option Errno} {now : BitVec 32} {w : BufWrite}
    {ws : ℕ → BufWrite} {c : MountCore D} {disk : ℤ → D}
    (hes : ¬L.isClean c.es) (hdisk : ¬L.isClean (disk SBLOCK)) :
    ¬L.isClean (ext2Sync L fs firstDblock wait inodes now w ws c disk).2.1.es ∧
      ¬L.isClean ((ext2Sync L fs firstDblock wait inodes now w ws c disk).2.2 SBLOCK) := by
  have hes' : ¬L.isClean (L.setWtime now c.es) := by rwa [isClean_setWtime]
  rw [ext2Sync]
  split
  · exact ⟨hes, hdisk⟩
  · split
    · rw [syncDone_es, syncDone_disk, cgupdate_sblock hplace]
      refine ⟨hes', ?_⟩
      split
      · exact hes'
      · exact hdisk
    · exact ⟨hes, hdisk⟩

omit hplace in
/-- What mounting does, where nothing else refuses it. -/
theorem mountStep_mount {s : MountSys D} (hcore : s.core = none) (ronly force : Bool) (w : BufWrite)
    (gd : ℕ → D) :
    mountStep L fs firstDblock (.mount ronly force none w gd) s =
      if (¬L.isClean (s.disk SBLOCK) ∨ L.hasErrors (s.disk SBLOCK)) ∧ ¬(ronly || force) then s
      else if ronly then
        ⟨s.disk, some ⟨s.disk SBLOCK, gd, true, false, decide (L.isClean (s.disk SBLOCK))⟩,
          decide (L.isClean (s.disk SBLOCK))⟩
      else
        ⟨(ext2Sbupdate true w (L.setInvalid (s.disk SBLOCK)) s.disk).2,
          some ⟨L.setInvalid (s.disk SBLOCK), gd, false, true,
            decide (L.isClean (s.disk SBLOCK))⟩, decide (L.isClean (s.disk SBLOCK))⟩ := by
  obtain ⟨disk, core, clean⟩ := s
  cases hcore
  simp only [mountStep, ext2Mountfs]
  by_cases hdeny : (¬L.isClean (disk SBLOCK) ∨ L.hasErrors (disk SBLOCK)) ∧ ¬(ronly || force)
  · rw [if_pos hdeny, if_pos hdeny]
  · rw [if_neg hdeny, if_neg hdeny]
    cases ronly <;> rfl

omit hplace in
/-- A mount leaves the volume unmarked exactly when the first write meets its condition. -/
theorem mount_unmarked_iff {s : MountSys D} (hcore : s.core = none) (ronly force : Bool)
    (w : BufWrite) (gd : ℕ → D) :
    Unmarked L (mountStep L fs firstDblock (.mount ronly force none w gd) s) ↔
      (ronly = false → L.isClean (s.disk SBLOCK) → (L.hasErrors (s.disk SBLOCK) → force = true) →
        w = .ok) := by
  rw [mountStep_mount hcore]
  by_cases hdeny : (¬L.isClean (s.disk SBLOCK) ∨ L.hasErrors (s.disk SBLOCK)) ∧ ¬(ronly || force)
  · rw [if_pos hdeny]
    constructor
    · intro _ _ hclean hforce
      obtain ⟨hbad, hflags⟩ := hdeny
      have herr := hbad.resolve_left (not_not.2 hclean)
      rw [hforce herr, Bool.or_true] at hflags
      exact absurd rfl hflags
    · intro _ c hc
      rw [hcore] at hc
      cases hc
  · rw [if_neg hdeny]
    cases ronly
    · simp only [Bool.false_eq_true, if_false, Unmarked, Option.some.injEq, sbupdate_disk]
      constructor
      · intro h _ hclean _
        by_contra hw
        have hmark := h _ rfl rfl
        rw [if_neg hw] at hmark
        exact hmark hclean
      · intro h c _ _
        by_cases hw : w = .ok
        · rw [if_pos hw]
          exact not_isClean_setInvalid _
        · rw [if_neg hw]
          intro hclean
          apply hw
          apply h trivial hclean
          intro herr
          by_contra hforce
          apply hdeny
          exact ⟨Or.inr herr, by simpa using hforce⟩
    · simp only [if_true, Unmarked, Option.some.injEq]
      constructor
      · intro _ h
        cases h
      · intro _ c hc hronly
        rw [← hc] at hronly
        cases hronly

omit hplace in
/-- A mount that leaves the volume unmarked starts the invariant. -/
theorem mount_inv {s : MountSys D} (hcore : s.core = none) {ronly force : Bool} {w : BufWrite}
    {gd : ℕ → D}
    (hunmarked : Unmarked L (mountStep L fs firstDblock (.mount ronly force none w gd) s)) :
    MountInv L (mountStep L fs firstDblock (.mount ronly force none w gd) s) := by
  rw [mountStep_mount hcore] at hunmarked ⊢
  by_cases hdeny : (¬L.isClean (s.disk SBLOCK) ∨ L.hasErrors (s.disk SBLOCK)) ∧ ¬(ronly || force)
  · rw [if_pos hdeny]
    intro c hc
    rw [hcore] at hc
    cases hc
  · rw [if_neg hdeny] at hunmarked ⊢
    cases ronly
    · rw [if_neg Bool.false_ne_true] at hunmarked ⊢
      intro c hc
      have hdisk := hunmarked c hc
      cases hc
      exact ⟨rfl, fun hr => ⟨not_isClean_setInvalid _, hdisk hr⟩⟩
    · rw [if_pos rfl]
      intro c hc
      cases hc
      refine ⟨rfl, ?_⟩
      intro hr
      cases hr

/-- The mark that an unmount leaves, where there was none. -/
theorem unmount_isClean_iff {w w' : BufWrite} {ws : ℕ → BufWrite} {c : MountCore D} {disk : ℤ → D}
    (hes : c.ronly = false → ¬L.isClean c.es) (hdisk : ¬L.isClean (disk SBLOCK)) :
    L.isClean (ext2UnmountWrites L fs firstDblock w ws w' c disk SBLOCK) ↔
      c.ronly = false ∧ c.wasvalid = true ∧ w' = .ok ∧
        (ext2Cgupdate fs firstDblock true w ws c.es c.gd disk).1 = none := by
  rw [ext2UnmountWrites]
  cases hronly : c.ronly
  · have hcg : ¬L.isClean ((ext2Cgupdate fs firstDblock true w ws c.es c.gd disk).2 SBLOCK) := by
      rw [cgupdate_sblock hplace]
      split
      · exact hes hronly
      · exact hdisk
    rw [if_neg Bool.false_ne_true, unmountDone]
    by_cases herr : (ext2Cgupdate fs firstDblock true w ws c.es c.gd disk).1 = none
    · rw [if_pos herr, sbupdate_disk]
      by_cases hw : w' = .ok
      · rw [if_pos hw]
        cases hvalid : c.wasvalid
        · simp [hes hronly]
        · simp [hw, herr, isClean_setValid]
      · simp [hw, hcg]
    · simp [herr, hcg]
  · simp [hdisk]

/-- An unmount keeps its promise exactly when it hides no failure. -/
theorem unmount_keeps_iff {s : MountSys D} {c : MountCore D} (hinv : MountInv L s)
    (hcore : s.core = some c) (w w' : BufWrite) (ws : ℕ → BufWrite) :
    (¬L.isClean (s.disk SBLOCK) →
        L.isClean (ext2UnmountWrites L fs firstDblock w ws w' c s.disk SBLOCK) →
          s.cleanAtMount = true ∧ AllWritten fs w ws) ↔
      (c.ronly = false → s.cleanAtMount = true → w = .ok → w' = .ok →
        ¬Masked fs.descRounds ws) := by
  obtain ⟨hvalid, hrw⟩ := hinv c hcore
  constructor
  · rintro h hronly hclean hw hw' ⟨⟨i, hi, hbad⟩, hnull, hlast⟩
    have hdisk := (hrw hronly).2
    have hmark := (unmount_isClean_iff hplace (fun hr => (hrw hr).1) hdisk).2
      ⟨hronly, hvalid.trans hclean, hw', (cgupdate_error_iff fs firstDblock w c.es s.disk).2
        ⟨hw, hnull, Or.inr hlast⟩⟩
    exact hbad ((h hdisk hmark).2.2 i hi)
  · intro h hdisk hmark
    obtain ⟨hronly, hwas, hw', herr⟩ :=
      (unmount_isClean_iff hplace (fun hr => (hrw hr).1) hdisk).1 hmark
    obtain ⟨hw, hnull, hlast⟩ := (cgupdate_error_iff fs firstDblock w c.es s.disk).1 herr
    have hclean : s.cleanAtMount = true := hvalid.symm.trans hwas
    refine ⟨hclean, hw, ?_⟩
    intro i hi
    by_contra hbad
    apply h hronly hclean hw hw'
    exact ⟨⟨i, hi, hbad⟩, hnull, hlast.resolve_left (by omega)⟩

omit hplace in
/-- A sync keeps its promise exactly when every write succeeds: it is no longer pending in any
case. -/
theorem sync_keeps_iff {wait : Bool} {inodes : Option Errno} {now : BitVec 32} {w : BufWrite}
    {ws : ℕ → BufWrite} {c : MountCore D} {disk : ℤ → D} :
    (c.fmod = true → c.ronly = false → ¬AllWritten fs w ws →
        (ext2Sync L fs firstDblock wait inodes now w ws c disk).1 ≠ none ∧
          (ext2Sync L fs firstDblock wait inodes now w ws c disk).2.1.fmod = true) ↔
      (c.fmod = true → c.ronly = false → AllWritten fs w ws) := by
  constructor
  · intro h hfmod hronly
    by_contra hbad
    have hpending := (h hfmod hronly hbad).2
    rw [ext2Sync, if_neg (by simp [hronly]), if_pos hfmod, syncDone_fmod] at hpending
    cases hpending
  · intro h hfmod hronly hbad
    exact absurd (h hfmod hronly) hbad

/-- Every operation keeps its promise exactly when its writes meet the condition. -/
theorem opKeeps_iff {s : MountSys D} (hinv : MountInv L s) (op : MountOp D) :
    OpKeeps L fs firstDblock op s ↔ WritesSafe L fs op s := by
  have hsame : Unmarked L s := fun c hc hronly => ((hinv c hc).2 hronly).2
  cases hcore : s.core with
  | none =>
    cases op with
    | mount ronly force refused w gd =>
      cases refused with
      | none =>
        simp only [OpKeeps, WritesSafe, hcore, and_true]
        exact mount_unmarked_iff hcore ronly force w gd
      | some e =>
        have hstep : mountStep L fs firstDblock (.mount ronly force (some e) w gd) s = s := by
          simp only [mountStep, hcore, ext2Mountfs]
          rw [← hcore]
        simp only [OpKeeps, WritesSafe, and_true, iff_true]
        rwa [hstep]
    | sync wait inodes now w ws =>
      simp only [OpKeeps, WritesSafe, mountStep, hcore, and_true, iff_true]
      exact hsame
    | change es gd =>
      simp only [OpKeeps, WritesSafe, mountStep, hcore, and_true, iff_true]
      exact hsame
    | unmount busy w ws w' =>
      cases busy <;>
        · simp only [OpKeeps, WritesSafe, mountStep, hcore, and_true, iff_true]
          exact hsame
  | some c =>
    obtain ⟨hvalid, hrw⟩ := hinv c hcore
    cases op with
    | mount ronly force refused w gd =>
      cases refused <;>
        · simp only [OpKeeps, WritesSafe, mountStep, hcore, and_true, iff_true]
          exact hsame
    | sync wait inodes now w ws =>
      have hstep : Unmarked L (mountStep L fs firstDblock (.sync wait inodes now w ws) s) := by
        simp only [Unmarked, mountStep, hcore, Option.some.injEq]
        intro c' hc' hronly
        have hframe := (sync_frame L fs firstDblock wait inodes now w ws c s.disk).1
        rw [hc'] at hframe
        obtain ⟨hes, hdisk⟩ := hrw (hframe.symm.trans hronly)
        exact (sync_unmarked hplace hes hdisk).2
      simp only [OpKeeps, WritesSafe, hcore]
      rw [and_iff_right hstep]
      exact sync_keeps_iff
    | change es gd =>
      simp only [OpKeeps, WritesSafe, hcore, and_true, iff_true, Unmarked, mountStep,
        Option.some.injEq]
      intro c' hc' hronly
      rw [← hc'] at hronly
      exact (hrw hronly).2
    | unmount busy w ws w' =>
      cases busy with
      | none =>
        have hstep : Unmarked L (mountStep L fs firstDblock (.unmount none w ws w') s) := by
          simp only [Unmarked, mountStep, hcore]
          intro c' hc'
          cases hc'
        simp only [OpKeeps, WritesSafe, hcore]
        rw [and_iff_right hstep]
        exact unmount_keeps_iff hplace hinv hcore w w' ws
      | some e =>
        simp only [OpKeeps, WritesSafe, mountStep, and_true, iff_true]
        exact hsame

/-- The invariant is kept by every operation whose writes meet the condition. -/
theorem mountInv_step {s : MountSys D} (hinv : MountInv L s) {op : MountOp D}
    (hsafe : WritesSafe L fs op s) : MountInv L (mountStep L fs firstDblock op s) := by
  have hunmarked := ((opKeeps_iff hplace hinv op).2 hsafe).1
  cases hcore : s.core with
  | none =>
    cases op with
    | mount ronly force refused w gd =>
      cases refused with
      | none =>
        exact mount_inv hcore hunmarked
      | some e =>
        intro c hc
        simp [mountStep, hcore, ext2Mountfs] at hc
    | sync wait inodes now w ws =>
      simp only [mountStep, hcore]
      exact hinv
    | change es gd =>
      simp only [mountStep, hcore]
      exact hinv
    | unmount busy w ws w' =>
      cases busy <;>
        · simp only [mountStep, hcore]
          exact hinv
  | some c =>
    obtain ⟨hvalid, hrw⟩ := hinv c hcore
    cases op with
    | mount ronly force refused w gd =>
      cases refused <;>
        · simp only [mountStep, hcore]
          exact hinv
    | sync wait inodes now w ws =>
      intro c' hc'
      simp only [mountStep, hcore, Option.some.injEq] at hc'
      obtain ⟨hronly, hwas⟩ := sync_frame L fs firstDblock wait inodes now w ws
        c s.disk
      subst hc'
      simp only [mountStep, hcore]
      refine ⟨hwas.trans hvalid, fun hr => ?_⟩
      obtain ⟨hes, hdisk⟩ := hrw (hronly.symm.trans hr)
      exact sync_unmarked hplace hes hdisk
    | change es gd =>
      intro c' hc'
      simp only [mountStep, hcore, Option.some.injEq] at hc' ⊢
      subst hc'
      refine ⟨hvalid, fun hronly => ?_⟩
      rw [isClean_setState]
      exact hrw hronly
    | unmount busy w ws w' =>
      cases busy with
      | none =>
        intro c' hc'
        simp [mountStep, hcore] at hc'
      | some e =>
        simp only [mountStep]
        exact hinv

/-- **Runs of mounts, syncs and unmounts.**  In every run whose writes meet the condition, a volume
mounted for writing is not marked clean, and the next operation keeps its promise exactly when its
writes meet the condition too. -/
theorem mount_runs {s : MountSys D}
    (h : Runs.Reach (mountStep L fs firstDblock) (WritesSafe L fs) (fun s => s.core = none) s) :
    Unmarked L s ∧ ∀ op, OpKeeps L fs firstDblock op s ↔ WritesSafe L fs op s := by
  have hinv : MountInv L s := by
    refine h.invariant ?_ ?_
    · intro s hs c hc
      rw [hs] at hc
      cases hc
    · intro op s hinv hsafe
      exact mountInv_step hplace hinv hsafe
  exact ⟨fun c hc hronly => ((hinv c hc).2 hronly).2, opKeeps_iff hplace hinv⟩

end Runs

/-! ### Two runs -/

/-- A superblock that has nothing but a state and a write time. -/
def plainLayout : SbLayout (BitVec 16 × BitVec 32) where
  state d := d.1
  setState x d := (x, d.2)
  setWtime t d := (d.1, t)
  state_setState _ _ := rfl
  state_setWtime _ _ := rfl

/-- A volume of 33 groups, whose descriptors take two blocks. -/
def twoDescs : Geometry := { plainMount.toGeometry with gcount := 33, gdbcount := 2 }

/-- A device with a clean superblock, not mounted. -/
def cleanDevice : MountSys (BitVec 16 × BitVec 32) := ⟨fun _ => (1, 0), none, false⟩

/-- The volume mounted for writing. -/
def mountedDevice : MountSys (BitVec 16 × BitVec 32) :=
  mountStep plainLayout twoDescs 1 (.mount false false none .ok fun _ => (0, 0)) cleanDevice

theorem twoDescs_place : ∀ i < twoDescs.descRounds, twoDescs.descWriteAt 1 i ≠ SBLOCK := by
  decide +kernel

theorem mountedDevice_keeps :
    Unmarked plainLayout mountedDevice ∧
      ∀ op, OpKeeps plainLayout twoDescs 1 op mountedDevice ↔
        WritesSafe plainLayout twoDescs op mountedDevice :=
  mount_runs twoDescs_place (.call _ (.start rfl) fun _ _ _ => rfl)

/-- The unmount whose first descriptor block is not written marks the volume clean. -/
theorem masked_unmount_marks :
    ¬OpKeeps plainLayout twoDescs 1
      (.unmount none .ok (fun i => if i = 0 then .fail .eio else .ok) .ok) mountedDevice := by
  rintro ⟨-, hkeeps⟩
  have hwritten := hkeeps (by decide +kernel) (by decide +kernel)
  have hfirst := hwritten.2.2 0 (by decide +kernel)
  cases hfirst

end Ext2fs
