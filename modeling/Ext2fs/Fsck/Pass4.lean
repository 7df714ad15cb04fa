import Ext2fs.Fsck.LinkDotdots
import Ext2fs.Lib.DupList

/-!
# Pass 4: the link counts

`pass4` comes to every inode once.  What is left of the count of an inode in use is the number by which
its link count is too high; `adjust` takes it off, unless nothing has been taken off before, which means
that the inode has no name.  The link count is read and written where `ginode` points.

* `adjust`, `pass4Ino`, `pass4` — the pass;
* `pass4_nlink` — a link count in no structure that `ginode` points at stays;
* `pass4_at` — what becomes of an inode depends on what is known of that inode alone;
* **`links_counted`** — after passes 2 and 4 the link count of an inode in use that `ginode` finds is the
  number of its names, and what is done with an inode that has none.

What `linkup` does in this pass is left out but for the inodes that it is called for.
-/

namespace Ext2fs.Fsck

open Bytes

/-- Why `clri` clears an inode. -/
inductive ClearType where
  | unref | zeroLength | badDup
  deriving DecidableEq, Repr

/-- What pass 4 does with an inode. -/
inductive Deed where
  /-- `linkup`, and `clri` where that fails -/
  | linkup
  | clri (type : ClearType)
  /-- `LINK COUNT ... COUNT ... SHOULD BE ...` -/
  | adjusted (count : ℕ) (should : ℤ)
  deriving DecidableEq, Repr

/-- What `pass4` works on. -/
structure Pass4State where
  statemap : ℕ → InoState
  lncntp : ℕ → ℤ
  /-- the bytes of the inodes -/
  itab : Mem
  /-- the inodes that pass 1 has found with the count 0 -/
  zlnhead : List ℕ
  /-- what has been done with each inode -/
  deeds : ℕ → List Deed

namespace Pass4State

variable (s : Pass4State) (i p : ℕ)

/-- The link count in the structure at a place. -/
def nlink : ℕ := (dinodeAt s.itab p).e2di_nlink

def note (d : Deed) : Pass4State := { s with deeds := Function.update s.deeds i (s.deeds i ++ [d]) }

/-- `clri`, where `ginode` points at `p`: the structure is all zeros afterwards. -/
def clri (type : ClearType) : Pass4State :=
  { s.note i (.clri type) with
    itab := zero s.itab p (p + DINODE_STRUCT)
    statemap := Function.update s.statemap i .ustate }

/-- `adjust`, where `ginode` points at `p`; the count in the inode is not signed, the other one is. -/
def adjust (lcnt : ℤ) : Pass4State :=
  if (s.nlink p : ℤ) = lcnt then s.note i .linkup
  else
    { s.note i (.adjusted (s.nlink p) (s.nlink p - lcnt)) with
      itab := setNlink s.itab p ((s.nlink p - lcnt) % 2 ^ 16).toNat }

end Pass4State

variable (ginode : ℕ → ℕ)

/-- The body of the loop of `pass4`; `ginode` is where it points for each inode. -/
def pass4Ino (s : Pass4State) (inumber : ℕ) : Pass4State :=
  let p := ginode inumber
  match s.statemap inumber with
  | .fstate | .dfound =>
    if s.lncntp inumber ≠ 0 then s.adjust inumber p (s.lncntp inumber)
    else if inumber ∈ s.zlnhead then
      { s with zlnhead := DupList.take inumber s.zlnhead }.clri inumber p .unref
    else s
  | .dstate => s.clri inumber p .unref
  | .dclear => s.clri inumber p (if (dinodeAt s.itab p).inosize = 0 then .zeroLength else .badDup)
  | .fclear => s.clri inumber p .badDup
  | .ustate => s

/-- The inodes that `pass4` comes to. -/
def pass4Inodes (lastino : ℕ) : List ℕ :=
  (List.range' ROOTINO (lastino + 1 - ROOTINO)).filter fun i => ¬(i < FIRSTINO ∧ ROOTINO < i)

/-- `pass4` -/
def pass4 (lastino : ℕ) (s : Pass4State) : Pass4State := (pass4Inodes lastino).foldl (pass4Ino ginode) s

variable {ginode} {s t u : Pass4State} {i j p a : ℕ}

/-! ### The bytes -/

theorem setNlink_apart {m : Mem} {n : ℕ} (h : a < p ∨ p + DINODE_STRUCT ≤ a) : setNlink m p n a = m a := by
  unfold DINODE_STRUCT at h
  rcases h with h | h
  · exact put_of_lt (by omega)
  · exact put_of_ge (by omega)

theorem clri_apart (type : ClearType) (h : a < p ∨ p + DINODE_STRUCT ≤ a) : (s.clri i p type).itab a = s.itab a :=
  if_neg (by omega)

theorem adjust_apart (lcnt : ℤ) (h : a < p ∨ p + DINODE_STRUCT ≤ a) : (s.adjust i p lcnt).itab a = s.itab a := by
  unfold Pass4State.adjust
  split
  · rfl
  · exact setNlink_apart h

/-- A round writes in one structure. -/
theorem pass4Ino_apart (h : a < ginode j ∨ ginode j + DINODE_STRUCT ≤ a) :
    (pass4Ino ginode s j).itab a = s.itab a := by
  have hused : (if s.lncntp j ≠ 0 then s.adjust j (ginode j) (s.lncntp j)
      else if j ∈ s.zlnhead then { s with zlnhead := DupList.take j s.zlnhead }.clri j (ginode j) .unref
      else s).itab a = s.itab a := by
    split
    · exact adjust_apart _ h
    · split
      · exact clri_apart _ h
      · rfl
  unfold pass4Ino
  simp only
  split
  · exact hused
  · exact hused
  · exact clri_apart _ h
  · exact clri_apart _ h
  · exact clri_apart _ h
  · rfl

theorem foldl_apart {l : List ℕ} (h : ∀ j ∈ l, a < ginode j ∨ ginode j + DINODE_STRUCT ≤ a) :
    (l.foldl (pass4Ino ginode) s).itab a = s.itab a := by
  induction l generalizing s with
  | nil => rfl
  | cons j l ih =>
    obtain ⟨hj, hl⟩ := List.forall_mem_cons.1 h
    exact (ih hl).trans (pass4Ino_apart hj)

/-- The structures lie beside a link count. -/
def Beside (ginode : ℕ → ℕ) (p : ℕ) (l : List ℕ) : Prop :=
  ∀ j ∈ l, ginode j + DINODE_STRUCT ≤ p + 26 ∨ p + 28 ≤ ginode j

theorem foldl_nlink {l : List ℕ} (h : Beside ginode p l) : (l.foldl (pass4Ino ginode) s).nlink p = s.nlink p :=
  le_congr fun k hk => foldl_apart fun j hj => by
    have := h j hj
    omega

/-- **A link count in no structure that `ginode` points at** stays as it is. -/
theorem pass4_nlink {lastino : ℕ} (h : Beside ginode p (pass4Inodes lastino)) :
    (pass4 ginode lastino s).nlink p = s.nlink p := foldl_nlink h

/-! ### One inode -/

/-- The same is known of the inode, and has been done with it. -/
structure AgreeAt (i : ℕ) (s t : Pass4State) : Prop where
  statemap : t.statemap i = s.statemap i
  lncntp : t.lncntp i = s.lncntp i
  zln : i ∈ t.zlnhead ↔ i ∈ s.zlnhead
  deeds : t.deeds i = s.deeds i

theorem AgreeAt.refl (i : ℕ) (s : Pass4State) : AgreeAt i s s := ⟨rfl, rfl, Iff.rfl, rfl⟩

theorem AgreeAt.trans (h : AgreeAt i s t) (h' : AgreeAt i t u) : AgreeAt i s u :=
  ⟨h'.statemap.trans h.statemap, h'.lncntp.trans h.lncntp, h'.zln.trans h.zln, h'.deeds.trans h.deeds⟩

theorem mem_take_of_ne {l : List ℕ} (hj : j ∈ l) (hne : i ≠ j) : i ∈ DupList.take j l ↔ i ∈ l := by
  rw [← (DupList.take_perm hj).mem_iff, List.mem_cons, or_iff_right hne]

theorem clri_other (hne : i ≠ j) (type : ClearType) : AgreeAt i s (s.clri j p type) :=
  ⟨Function.update_of_ne hne _ _, rfl, Iff.rfl, Function.update_of_ne hne _ _⟩

theorem adjust_other (hne : i ≠ j) (lcnt : ℤ) : AgreeAt i s (s.adjust j p lcnt) := by
  unfold Pass4State.adjust
  split
  · exact ⟨rfl, rfl, Iff.rfl, Function.update_of_ne hne _ _⟩
  · exact ⟨rfl, rfl, Iff.rfl, Function.update_of_ne hne _ _⟩

/-- The round for another inode. -/
theorem pass4Ino_other (hne : i ≠ j) : AgreeAt i s (pass4Ino ginode s j) := by
  have hused : AgreeAt i s (if s.lncntp j ≠ 0 then s.adjust j (ginode j) (s.lncntp j)
      else if j ∈ s.zlnhead then { s with zlnhead := DupList.take j s.zlnhead }.clri j (ginode j) .unref
      else s) := by
    split
    · exact adjust_other hne _
    · split
      next hmem =>
        have htake : AgreeAt i s { s with zlnhead := DupList.take j s.zlnhead } :=
          ⟨rfl, rfl, mem_take_of_ne hmem hne, rfl⟩
        exact htake.trans (clri_other hne _)
      · exact .refl i s
  unfold pass4Ino
  simp only
  split
  · exact hused
  · exact hused
  · exact clri_other hne _
  · exact clri_other hne _
  · exact clri_other hne _
  · exact .refl i s

/-- Inodes behind and before one are other inodes. -/
theorem foldl_other {l : List ℕ} (hi : i ∉ l) : AgreeAt i s (l.foldl (pass4Ino ginode) s) := by
  induction l generalizing s with
  | nil => exact .refl i s
  | cons j l ih =>
    obtain ⟨hne, hi⟩ := not_or.1 (mt List.mem_cons.2 hi)
    exact (pass4Ino_other hne).trans (ih hi)

theorem mem_pass4Inodes {lastino : ℕ} :
    i ∈ pass4Inodes lastino ↔ ¬(i < FIRSTINO ∧ i ≠ ROOTINO) ∧ i ≤ lastino := by
  unfold pass4Inodes FIRSTINO ROOTINO
  simp only [List.mem_filter, List.mem_range'_1, decide_eq_true_eq]
  omega

/-- `pass4` does not leave out an inode in use. -/
theorem DirEnv.Live.inRange_low {E : DirEnv} (h : E.Live i) : ¬(i < FIRSTINO ∧ i ≠ ROOTINO) :=
  fun hc => h.inRange (.inr hc)

/-- **An inode after the pass**: it comes to the inode once, and what it does there depends on what was
known of the inode at the start, and on its link count. -/
theorem pass4_at {lastino : ℕ} (hi : ¬(i < FIRSTINO ∧ i ≠ ROOTINO)) (hle : i ≤ lastino)
    (hbeside : Beside ginode p ((pass4Inodes lastino).filter (· ≠ i))) :
    ∃ t, AgreeAt i s t ∧ t.nlink p = s.nlink p ∧ AgreeAt i (pass4Ino ginode t i) (pass4 ginode lastino s) ∧
      (pass4 ginode lastino s).nlink p = (pass4Ino ginode t i).nlink p := by
  have hmem : ∀ j, j ≠ i → j ∈ pass4Inodes lastino → j ∈ (pass4Inodes lastino).filter (· ≠ i) :=
    fun j hne hj => List.mem_filter.2 ⟨hj, by simpa using hne⟩
  obtain ⟨pre, post, hsplit⟩ := List.append_of_mem (mem_pass4Inodes.2 ⟨hi, hle⟩)
  have hnd : (pass4Inodes lastino).Nodup := (List.nodup_range' ..).filter _
  rw [hsplit] at hnd
  obtain ⟨-, hnd', hdisj⟩ := List.nodup_append.1 hnd
  have hpre : i ∉ pre := fun hc => hdisj i hc i List.mem_cons_self rfl
  have hpost : i ∉ post := (List.nodup_cons.1 hnd').1
  have hbefore : Beside ginode p pre := fun j hj =>
    hbeside j (hmem j (fun hc => hpre (hc ▸ hj)) (by rw [hsplit]; exact List.mem_append_left _ hj))
  have hbehind : Beside ginode p post := fun j hj =>
    hbeside j (hmem j (fun hc => hpost (hc ▸ hj)) (by
      rw [hsplit]
      exact List.mem_append_right _ (List.mem_cons_of_mem _ hj)))
  refine ⟨pre.foldl (pass4Ino ginode) s, foldl_other hpre, foldl_nlink hbefore, ?_⟩
  unfold pass4
  rw [hsplit, List.foldl_append, List.foldl_cons]
  exact ⟨foldl_other hpost, foldl_nlink hbehind⟩

/-! ### The counts -/

/-- The count of pass 1. -/
theorem i16_eq {n : ℕ} (hn : n < 2 ^ 16) : i16 n = if n < 2 ^ 15 then (n : ℤ) else n - 2 ^ 16 := by
  unfold i16
  rw [Int.bmod_def]
  norm_num
  split <;> split <;> omega

/-- What is left of a count from which `k` has been taken off. -/
theorem nlink_sub {n k : ℕ} {x : ℤ} (h : (x : ZMod (2 ^ 16)) + (k : ZMod (2 ^ 16)) = (i16 n : ZMod (2 ^ 16))) :
    (((n : ℤ) - x) % 2 ^ 16).toNat = k % 2 ^ 16 := by
  rw [i16_cast, ← Int.cast_natCast (R := ZMod (2 ^ 16)) k, ← Int.cast_add, ZMod.intCast_eq_intCast_iff] at h
  have hmod : (n - x) % 2 ^ 16 = (k : ℤ) % 2 ^ 16 := by
    have h' : (x + k) % 2 ^ 16 = (n : ℤ) % 2 ^ 16 := h
    omega
  rw [hmod]
  omega

/-- The first loop of pass 2 writes the size of the directory. -/
theorem checkDir_apart {E : DirEnv} {s : Pass2State} {d a : ℕ} (h : Tidy E s) (hd : d ∈ E.inpsort)
    (hplace : Resized E s d → E.ginode d = E.slot d) (ha : a < E.slot d + 4 ∨ E.slot d + 8 ≤ a) :
    (checkDir E d s).itab a = s.itab a := by
  by_cases hsize : s.i_isize d = 0
  · have heq : checkDir E d s = s := if_pos hsize
    rw [heq]
  rw [checkDir_eq hsize]
  simp only
  split
  · rfl
  next hset =>
    have hlt : fixedSize E (s.i_isize d) < 2 ^ 31 :=
      (h.noted d hd).small.resolve_right fun hmod => hset (fixedSize_of_mod hsize hmod)
    rw [hplace ⟨hsize, hset⟩, inossizeAt_dir (h.noted d hd).dir hlt]
    rcases ha with ha | ha
    · exact put_of_lt ha
    · exact put_of_ge (by omega)

theorem scanDirs_apart {E : DirEnv} {s : Pass2State} {ds : List ℕ} {a : ℕ} (h : Tidy E s)
    (hds : ∀ d ∈ ds, d ∈ E.inpsort ∧ d ≤ E.v.maxino) (hplace : ∀ d ∈ ds, Resized E s d → E.ginode d = E.slot d)
    (ha : ∀ d ∈ ds, a < E.slot d + 4 ∨ E.slot d + 8 ≤ a) : (scanDirs E ds s).itab a = s.itab a := by
  induction ds generalizing s with
  | nil => rfl
  | cons d ds ih =>
    obtain ⟨⟨hd, hle⟩, hds⟩ := List.forall_mem_cons.1 hds
    obtain ⟨hplace, hplaces⟩ := List.forall_mem_cons.1 hplace
    obtain ⟨ha, has⟩ := List.forall_mem_cons.1 ha
    have hrest : (scanDirs E ds (checkDir E d s)).itab a = (checkDir E d s).itab a :=
      ih (checkDir_tidy h hd hle hplace) hds (fun x hx hr => hplaces x hx (checkDir_resized hr)) has
    exact hrest.trans (checkDir_apart h hd hplace ha)

/-- The second loop of pass 2 writes no inode. -/
theorem fixDotdots_itab {E : DirEnv} {s : Pass2State} {ds : List ℕ} (alloc : ℕ → ℕ) (h : Tidy E s)
    (hds : ∀ d ∈ ds, d ∈ E.inpsort) (hmod : ∀ d ∈ ds, s.i_isize d % E.v.bsize = 0)
    (hplace : ∀ d ∈ ds, Unsettled s d → E.ginode d = E.slot d) : (fixDotdots E alloc ds s).itab = s.itab := by
  induction ds generalizing s with
  | nil => rfl
  | cons d ds ih =>
    obtain ⟨hd, hds⟩ := List.forall_mem_cons.1 hds
    obtain ⟨hmod, hmods⟩ := List.forall_mem_cons.1 hmod
    obtain ⟨hplace, hplaces⟩ := List.forall_mem_cons.1 hplace
    have hedited := fixDotdot_edited h hd hmod hplace (alloc d)
    have hrest : (fixDotdots E alloc ds (fixDotdot E d (alloc d) s)).itab = (fixDotdot E d (alloc d) s).itab :=
      ih (hedited.tidy h) hds (fun x hx => by rw [hedited.i_isize]; exact hmods x hx)
        fun x hx hu => hplaces x hx (fixDotdot_unsettled hu)
    exact hrest.trans hedited.itab

/-- `ginode` finds the inode, and nothing that is written for another one falls on its link count. -/
structure CountAlone (E : DirEnv) (lastino i : ℕ) : Prop where
  finds : E.ginode i = E.slot i
  dirs : ∀ d ∈ E.inpsort, d ≠ i → E.slot d + DINODE_READ ≤ E.slot i ∨ E.slot i + DINODE_READ ≤ E.slot d
  others : Beside E.ginode (E.slot i) ((pass4Inodes lastino).filter (· ≠ i))

/-- **Pass 2 leaves the link count** of such an inode. -/
theorem pass2_nlink {E : DirEnv} {s : Pass2State} {lastino : ℕ} (h : Orderly E s) (alloc : ℕ → ℕ)
    (halone : CountAlone E lastino i) : ((pass2 E alloc s).inode E i).e2di_nlink = (s.inode E i).e2di_nlink := by
  have hscan := h.scannable
  obtain ⟨-, htidy, -⟩ := scanDirs_balance hscan h.entered.toTidy h.finds.sizes
  have hsame : (pass2 E alloc s).itab = (scanDirs E E.inpsort s).itab :=
    fixDotdots_itab alloc htidy (fun _ hd => hd) (fun d hd => scanDirs_mod (.inl hd)) h.finds.dotdots
  refine le_congr fun k hk => ?_
  rw [hsame]
  refine scanDirs_apart h.entered.toTidy (fun d hd => ⟨hd, (h.entered.valid d hd).2⟩) h.finds.sizes fun d hd => ?_
  rcases eq_or_ne d i with rfl | hne
  · right
    omega
  · have hdirs := halone.dirs d hd hne
    unfold DINODE_READ at hdirs
    omega

/-- What pass 1 leaves to pass 4: a copy of every link count, the list of the inodes with none, all
directories found from the root, and no inode in use behind `lastino`. -/
structure Known (E : DirEnv) (s : Pass2State) (zln : List ℕ) (state : ℕ → InoState) (lastino : ℕ) : Prop where
  count : ∀ i, E.Live i → s.lncntp i = i16 (s.inode E i).e2di_nlink
  zln : ∀ i, E.Live i → (i ∈ zln ↔ (s.inode E i).e2di_nlink = 0)
  found : ∀ i, E.Live i → state i = .fstate ∨ state i = .dfound
  last : ∀ i, E.Live i → i ≤ lastino

/-- An inode in use, in its round. -/
theorem pass4Ino_used (ginode : ℕ → ℕ) (h : s.statemap i = .fstate ∨ s.statemap i = .dfound) :
    pass4Ino ginode s i =
      if s.lncntp i ≠ 0 then s.adjust i (ginode i) (s.lncntp i)
      else if i ∈ s.zlnhead then { s with zlnhead := DupList.take i s.zlnhead }.clri i (ginode i) .unref
      else s := by
  unfold pass4Ino
  rcases h with h | h <;> rw [h]

/-- **The round of an inode in use** that has `k` names: the link count is `k` afterwards; without a name
the inode is linked, or cleared if its count is 0, or keeps the count 0 if it was negative. -/
theorem pass4Ino_links {n k : ℕ} (hp : ginode i = p) (hnlink : s.nlink p = n)
    (hcount : (s.lncntp i : ZMod (2 ^ 16)) + (k : ZMod (2 ^ 16)) = (i16 n : ZMod (2 ^ 16)))
    (hlow : -2 ^ 15 ≤ s.lncntp i ∧ s.lncntp i < 2 ^ 15) (hzln : i ∈ s.zlnhead ↔ n = 0) (hdeeds : s.deeds i = [])
    (hstate : s.statemap i = .fstate ∨ s.statemap i = .dfound) :
    (k % 2 ^ 16 ≠ 0 → (pass4Ino ginode s i).nlink p = k % 2 ^ 16 ∧
      (pass4Ino ginode s i).statemap i = s.statemap i ∧
      ((pass4Ino ginode s i).deeds i = [] ∨ ∃ m, (pass4Ino ginode s i).deeds i = [.adjusted n m])) ∧
    (k % 2 ^ 16 = 0 → n = 0 → (pass4Ino ginode s i).deeds i = [.clri .unref]) ∧
    (k % 2 ^ 16 = 0 → 0 < n → n < 2 ^ 15 → (pass4Ino ginode s i).deeds i = [.linkup] ∧
      (pass4Ino ginode s i).nlink p = n) ∧
    (k % 2 ^ 16 = 0 → 2 ^ 15 ≤ n → (pass4Ino ginode s i).nlink p = 0 ∧
      (pass4Ino ginode s i).statemap i = s.statemap i ∧
      (pass4Ino ginode s i).deeds i = [.adjusted n (2 ^ 16)]) := by
  have hn : n < 2 ^ 16 := hnlink ▸ le_lt 2 s.itab (p + 26)
  obtain ⟨x, hx⟩ : ∃ x, x = s.lncntp i := ⟨_, rfl⟩
  rw [← hx] at hcount hlow
  have hsub := nlink_sub (n := n) (k := k) hcount
  have hround := pass4Ino_used ginode hstate
  rw [← hx, hp] at hround
  by_cases hzero : x = 0
  · -- the link count is the number of names
    have hkn : n = k % 2 ^ 16 := by
      rw [← hsub, hzero]
      omega
    rw [if_neg (not_not.2 hzero)] at hround
    by_cases hmem : i ∈ s.zlnhead
    · have hn0 := hzln.1 hmem
      rw [if_pos hmem] at hround
      rw [hround]
      refine ⟨fun hk => absurd (hkn.symm.trans hn0) hk, fun _ _ => ?_, fun _ hpos => absurd hn0 (by omega),
        fun _ hbig => absurd hn0 (by omega)⟩
      show Function.update s.deeds i (s.deeds i ++ _) i = _
      rw [Function.update_self, hdeeds]
      rfl
    · have hn0 : n ≠ 0 := fun hc => hmem (hzln.2 hc)
      rw [if_neg hmem] at hround
      rw [hround]
      exact ⟨fun _ => ⟨hnlink.trans hkn, rfl, .inl hdeeds⟩, fun hk => absurd (hkn.trans hk) hn0,
        fun hk => absurd (hkn.trans hk) hn0, fun hk => absurd (hkn.trans hk) hn0⟩
  rw [if_pos hzero] at hround
  by_cases heq : (n : ℤ) = x
  · -- no name has been found
    have hk : k % 2 ^ 16 = 0 := by
      rw [← hsub, heq]
      simp
    have hadjust : s.adjust i p x = s.note i .linkup := if_pos (by rw [hnlink]; exact heq)
    rw [hround, hadjust]
    refine ⟨fun hc => absurd hk hc, fun _ hc => absurd (show x = 0 by omega) hzero, fun _ _ _ => ⟨?_, hnlink⟩,
      fun _ hbig => by omega⟩
    show Function.update s.deeds i (s.deeds i ++ _) i = _
    rw [Function.update_self, hdeeds]
    rfl
  · have hadjust : s.adjust i p x = { s.note i (.adjusted (s.nlink p) (s.nlink p - x)) with
        itab := setNlink s.itab p ((s.nlink p - x) % 2 ^ 16).toNat } :=
      if_neg (by rw [hnlink]; exact heq)
    have hnew : (s.adjust i p x).nlink p = k % 2 ^ 16 := by
      rw [hadjust, ← hsub, ← hnlink]
      exact le_put_of_lt (by norm_num; omega)
    have hlog : (s.adjust i p x).deeds i = [.adjusted n (n - x)] := by
      rw [hadjust, ← hnlink]
      show Function.update s.deeds i (s.deeds i ++ _) i = _
      rw [Function.update_self, hdeeds]
      rfl
    have hkeep : (s.adjust i p x).statemap i = s.statemap i := by rw [hadjust]; rfl
    -- when `k` is 0, the copy of the count is the count or less by 2^16
    have hdvd : k % 2 ^ 16 = 0 → (n : ℤ) - x = 0 ∨ (n : ℤ) - x = 2 ^ 16 := by
      intro hk
      rw [hk] at hsub
      have hnn : (0 : ℤ) ≤ ((n : ℤ) - x) % 2 ^ 16 := Int.emod_nonneg _ (by norm_num)
      omega
    rw [hround]
    refine ⟨fun _ => ⟨hnew, hkeep, .inr ⟨_, hlog⟩⟩, fun hk hn0 => ?_, fun hk hpos hsmall => ?_, fun hk hbig => ?_⟩
    · rcases hdvd hk with h | h <;> omega
    · rcases hdvd hk with h | h <;> omega
    · refine ⟨hnew.trans hk, hkeep, ?_⟩
      rcases hdvd hk with h | h
      · omega
      · rw [hlog, h]

/-- **Link counts after passes 2 and 4**, when pass 3 has nothing to link.  Of an inode in use that `ginode`
finds, `k` is the number of the entries that name it, with those `..` that could not be made.  If there are
some, its link count is `k`.  If there are none, it is cleared when its count was 0, and handed to `linkup` when the count
was below `2 ^ 15`; with a larger one it stays, and has the count 0. -/
theorem links_counted (E : DirEnv) (s : Pass2State) (alloc : ℕ → ℕ) (zln : List ℕ) (state : ℕ → InoState)
    (lastino : ℕ) (h : Orderly E s) (hranged : Ranged s.lncntp) (hknown : Known E s zln state lastino) (i : ℕ)
    (hi : E.Live i) (halone : CountAlone E lastino i) :
    let t := pass2 E alloc s
    let n := (s.inode E i).e2di_nlink
    let k := t.names E.inpsort i + unmade E (scanDirs E E.inpsort s) E.inpsort i
    let u := pass4 E.ginode lastino ⟨state, t.lncntp, t.itab, zln, fun _ => []⟩
    (k % 2 ^ 16 ≠ 0 → u.nlink (E.slot i) = k % 2 ^ 16 ∧ u.statemap i = state i ∧
      (u.deeds i = [] ∨ ∃ m, u.deeds i = [.adjusted n m])) ∧
    (k % 2 ^ 16 = 0 → n = 0 → u.deeds i = [.clri .unref]) ∧
    (k % 2 ^ 16 = 0 → 0 < n → n < 2 ^ 15 → u.deeds i = [.linkup] ∧ u.nlink (E.slot i) = n) ∧
    (k % 2 ^ 16 = 0 → 2 ^ 15 ≤ n → u.nlink (E.slot i) = 0 ∧ u.statemap i = state i ∧
      u.deeds i = [.adjusted n (2 ^ 16)]) := by
  intro t n k u
  have hbalance := pass2_balance h alloc hi
  unfold Pass2State.rest at hbalance
  rw [hknown.count i hi, add_assoc, ← Nat.cast_add] at hbalance
  obtain ⟨v, hv, hvn, hu, hun⟩ : ∃ v, AgreeAt i ⟨state, t.lncntp, t.itab, zln, fun _ => []⟩ v ∧
      v.nlink (E.slot i) = (t.inode E i).e2di_nlink ∧ AgreeAt i (pass4Ino E.ginode v i) u ∧
      u.nlink (E.slot i) = (pass4Ino E.ginode v i).nlink (E.slot i) :=
    pass4_at hi.inRange_low (hknown.last i hi) halone.others
  rw [hun, hu.statemap, hu.deeds, ← show v.statemap i = state i from hv.statemap]
  refine pass4Ino_links halone.finds (hvn.trans (pass2_nlink h alloc halone)) (by rw [hv.lncntp]; exact hbalance) ?_
    (hv.zln.trans (hknown.zln i hi)) hv.deeds ?_
  · rw [hv.lncntp]
    exact hranged.pass2 alloc i
  · rw [hv.statemap]
    exact hknown.found i hi

/-! ### A directory that is counted -/

/-- The volume with the directory 13, and link counts of 1. -/
def countedState : Pass2State :=
  { wideState with itab := fun a => if a ∈ [5402, 7962, 8218, 8474] then 1 else wideState.itab a }

theorem counted_entered : Entered wideEnv countedState where
  nodup := wide_entered.nodup
  valid := wide_entered.valid
  parent_le := wide_entered.parent_le
  noted d hd := by
    rcases List.mem_pair.1 hd with rfl | rfl <;>
      exact ⟨by decide +kernel, by decide +kernel, by decide +kernel, by decide +kernel, by decide +kernel⟩
  apart := wide_entered.apart

theorem counted_finds : GinodeFinds wideEnv countedState where
  sizes := wide_finds.sizes
  dotdots d hd h := by
    rcases List.mem_pair.1 hd with rfl | rfl
    · exact absurd (by decide +kernel) h.2.2.1
    · exact absurd (by decide +kernel) h.2.2.1

theorem counted_orderly : Orderly wideEnv countedState where
  entered := counted_entered
  finds := counted_finds
  accepted d hd := by
    have hok : ∀ b ∈ [40, 41, 42], BlockOk wideEnv (countedState.blocks b) := by
      intro b hb
      exact ⟨fun r hr => rec_ok (by revert b r; decide +kernel), by revert b; decide +kernel⟩
    rcases List.mem_pair.1 hd with rfl | rfl
    · exact ⟨by decide, by decide, by decide, by decide, by decide, fun b hb => hok b (by revert b; decide)⟩
    · exact ⟨by decide, by decide, by decide, by decide, by decide, fun b hb => hok b (by revert b; decide)⟩
  fits := by
    show ∀ d ∈ wideEnv.inpsort, fixedSize wideEnv (countedState.i_isize d) < 2 ^ 31
    decide
  dotdot _ _ := rfl
  ends d hd r hr hname := by
    have hnot : ∀ d ∈ wideEnv.inpsort, ∀ r ∈ (countedState.recs d).head?, r.e2d_name ≠ dotdotName := by
      decide +kernel
    exact absurd hname (hnot d hd r hr)

/-- The inodes in use, with their link counts. -/
theorem counted_live {i : ℕ} (hi : wideEnv.Live i) : (countedState.inode wideEnv i).e2di_nlink = 1 := by
  have hmem : i = 2 ∨ i = 12 ∨ i = 13 ∨ i = 14 := by
    by_contra hc
    obtain ⟨h2, h12, h13, h14⟩ : i ≠ 2 ∧ i ≠ 12 ∧ i ≠ 13 ∧ i ≠ 14 := by omega
    have hfree : wideEnv.statemap i = .ustate := by
      show (if i = 2 ∨ i = 13 then InoState.dstate else if i = 12 ∨ i = 14 then .fstate else .ustate) = .ustate
      rw [if_neg (by omega), if_neg (by omega)]
    rcases hi.used with h | h | h <;> rw [hfree] at h <;> cases h
  rcases hmem with rfl | rfl | rfl | rfl <;> decide +kernel

theorem counted_known : Known wideEnv countedState [] (fun i => if i = 2 ∨ i = 13 then .dfound else .fstate) 16 where
  count i hi := by
    rw [counted_live hi]
    show (1 : ℤ) = i16 1
    decide
  zln i hi := by
    rw [counted_live hi]
    simp
  found i _ := by
    split
    · exact .inr rfl
    · exact .inl rfl
  last i hi := not_lt.1 fun hc => hi.inRange (.inl hc)

theorem counted_alone : CountAlone wideEnv 16 13 where
  finds := by decide
  dirs := by decide
  others := by unfold Beside; decide

/-- The directory 13 has the names `.` and `sub`, and its count is put right. -/
theorem links_counted_wide : (pass4 wideEnv.ginode 16 ⟨fun i => if i = 2 ∨ i = 13 then .dfound else .fstate,
    (pass2 wideEnv (fun _ => 0) countedState).lncntp, (pass2 wideEnv (fun _ => 0) countedState).itab, [],
    fun _ => []⟩).nlink 8192 = 2 :=
  ((links_counted wideEnv countedState (fun _ => 0) [] (fun i => if i = 2 ∨ i = 13 then .dfound else .fstate) 16
    counted_orderly (fun _ => show -2 ^ 15 ≤ (1 : ℤ) ∧ (1 : ℤ) < 2 ^ 15 by decide) counted_known 13
    ⟨by decide, by unfold DirEnv.InoOk; decide, .inr (.inl rfl)⟩ counted_alone).1 (by decide +kernel)).1.trans
      (by decide +kernel)

end Ext2fs.Fsck
