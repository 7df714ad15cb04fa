import Ext2fs.Lib.Runs
import Ext2fs.Vnops

/-!
# The link counts over whole runs

Whether `i_nlink` of every inode stays the number of records that name it, through any run of the vnops
that make and remove names, with calls that fail anywhere among them; `ext2_rename` is not one of them.
Inside a vnop the two numbers differ, so the lemmas carry the difference.

* `HasDots` — a directory has its own two records, and others by other names;
* `NameSys.Counted` — every inode in use has as many links as records name it, and `x` more;
* `Counted.addLinks`, `Counted.enter`, `Counted.remove`, `Counted.addDir`, `Counted.dropDir` — what each
  change does to `x`;
* `NameCall`, `nameStep`, `NameOk` — the calls, and what is asked of a step;
* `mkdir_unwritten` — an `ext2_mkdir` that cannot write the parent leaves it one link too many;
* **`link_runs`** — in every state of a run in which that does not happen the counts are right.
-/

namespace Ext2fs

open References Runs

/-! ### The records of a directory -/

/-- The name is neither `.` nor `..`. -/
def Dirent.Plain (e : Dirent) : Prop := e.name ≠ [46] ∧ e.name ≠ [46, 46]

/-- The records of the directory `d`, in any order: `.`, a `..` for `p`, and plain ones. -/
def HasDots (d p : ℕ) (l : List Dirent) : Prop :=
  ∃ t t' rest, l.Perm (⟨d, t, [46]⟩ :: ⟨p, t', [46, 46]⟩ :: rest) ∧ ∀ e ∈ rest, e.Plain

/-- `l'` is `l` with a new record that names `i`. -/
def Entered (l l' : List Dirent) (i : ℕ) : Prop := ∃ e : Dirent, e.Plain ∧ e.ino = i ∧ l'.Perm (e :: l)

section

variable {d p i : ℕ} {l l' : List Dirent} {e : Dirent}

theorem perm_third (a b c : Dirent) (r : List Dirent) : (a :: b :: c :: r).Perm (b :: c :: a :: r) :=
  (List.Perm.swap b a (c :: r)).trans ((List.Perm.swap c a r).cons b)

theorem HasDots.perm (h : HasDots d p l) (hl : l'.Perm l) : HasDots d p l' := by
  obtain ⟨t, t', rest, hperm, hrest⟩ := h
  exact ⟨t, t', rest, hl.trans hperm, hrest⟩

theorem HasDots.cons (h : HasDots d p l) (he : e.Plain) : HasDots d p (e :: l) := by
  obtain ⟨t, t', rest, hperm, hrest⟩ := h
  refine ⟨t, t', e :: rest, ?_, ?_⟩
  · exact (hperm.cons e).trans (perm_third e _ _ rest)
  · intro f hf
    rcases List.mem_cons.1 hf with rfl | hf
    · exact he
    · exact hrest f hf

theorem HasDots.of_cons (h : HasDots d p (e :: l)) (he : e.Plain) : HasDots d p l := by
  obtain ⟨t, t', rest, hperm, hrest⟩ := h
  have hmem : e ∈ rest := by
    have hall := hperm.subset List.mem_cons_self
    rcases List.mem_cons.1 hall with rfl | hall
    · exact absurd rfl he.1
    rcases List.mem_cons.1 hall with rfl | hall
    · exact absurd rfl he.2
    exact hall
  refine ⟨t, t', rest.erase e, ?_, fun f hf => hrest f (List.mem_of_mem_erase hf)⟩
  have hlast := hperm.trans (((List.perm_cons_erase hmem).cons _).cons _)
  exact (hlast.trans (perm_third e _ _ (rest.erase e)).symm).cons_inv

theorem HasDots.entered (h : HasDots d p l) (he : Entered l l' i) : HasDots d p l' := by
  obtain ⟨e, hplain, -, hperm⟩ := he
  exact (h.cons hplain).perm hperm

theorem HasDots.removed (h : HasDots d p l) (he : Entered l' l i) : HasDots d p l' := by
  obtain ⟨e, hplain, -, hperm⟩ := he
  exact (h.perm hperm.symm).of_cons hplain

/-- An empty directory has its own two records and nothing else. -/
theorem HasDots.empty {q : ℕ} (h : HasDots d p l)
    (hempty : ∀ e ∈ l, e.name = [46] ∨ e.name = [46, 46] ∧ e.ino = q) :
    (↑(l.map Dirent.ino) : Multiset ℕ) = {d, q} := by
  obtain ⟨t, t', rest, hperm, hrest⟩ := h
  have hnil : rest = [] := by
    apply List.eq_nil_iff_forall_not_mem.2
    intro e he
    rcases hempty e (hperm.symm.subset (List.mem_cons_of_mem _ (List.mem_cons_of_mem _ he))) with h | h
    · exact (hrest e he).1 h
    · exact (hrest e he).2 h.1
  have hparent : p = q := by
    rcases hempty ⟨p, t', [46, 46]⟩ (hperm.symm.subset (List.mem_cons_of_mem _ List.mem_cons_self)) with h | h
    · exact absurd (List.cons.inj h).2 (List.cons_ne_nil _ _)
    · exact h.2
  subst hnil hparent
  exact Multiset.coe_eq_coe.2 (hperm.map Dirent.ino)

end

/-! ### What is asked of the functions below -/

/-- `ext2_direnter` makes a record that names `i`, or fails and makes none. -/
def DirAnswer.Enters (ans : DirAnswer) (l : List Dirent) (i : ℕ) : Prop :=
  match ans.error with
  | none => Entered l ans.recs i
  | some _ => ans.recs.Perm l

/-- `ext2_dirremove` takes a record out that names `i`, or fails and takes none. -/
def DirAnswer.Removes (ans : DirAnswer) (l : List Dirent) (i : ℕ) : Prop :=
  match ans.error with
  | none => Entered ans.recs l i
  | some _ => ans.recs.Perm l

namespace NameSys

/-! ### Counts and their differences -/

/-- `x` with `δ` more for `j`. -/
def bump (x : ℕ → ℤ) (j : ℕ) (δ : ℤ) (i : ℕ) : ℤ := x i + if i = j then δ else 0

/-- Every inode in use has as many links as records name it, and `x` more; no record names a free
one, and the directories have their own records. -/
structure Counted (s : NameSys) (x : ℕ → ℤ) : Prop where
  count : ∀ i, s.used i = true → (s.inode i).nlink = BitVec.ofInt 16 (s.links i + x i)
  free : ∀ i, s.used i = false → s.links i = 0
  le : ∀ i, s.links i ≤ LINK_MAX
  dots : ∀ d ∈ s.dirs, ∃ p, HasDots d p (s.recs d)

section

variable {s : NameSys} {x y : ℕ → ℤ} {i j d p : ℕ} {l : List Dirent}

theorem bump_ne (hij : i ≠ j) (δ : ℤ) : bump x j δ i = x i := by
  unfold bump
  rw [if_neg hij, add_zero]

theorem bump_back (x : ℕ → ℤ) (j : ℕ) (δ : ℤ) (i : ℕ) : bump (bump x j δ) j (-δ) i = x i := by
  unfold bump
  split_ifs <;> ring

/-- An inode in use is not a free one. -/
theorem ne_of_used (hused : s.used j = true) (hfree : s.used i = false) : i ≠ j := by
  rintro rfl
  rw [hfree] at hused
  cases hused

theorem setRecs_refs (s : NameSys) (d : ℕ) (l : List Dirent) :
    (s.setRecs d l).refs = Function.update s.refs d ↑(l.map Dirent.ino) := by
  funext e
  unfold refs setRecs
  dsimp only
  by_cases he : e = d
  · subst he
    rw [Function.update_self, Function.update_self]
  · rw [Function.update_of_ne he, Function.update_of_ne he]

theorem Counted.congr (h : s.Counted x) (hx : ∀ i, x i = y i) : s.Counted y := by
  rwa [← funext hx]

/-- A directory names itself. -/
theorem Counted.dir_used (h : s.Counted x) (hd : d ∈ s.dirs) : s.used d = true := by
  by_contra hfree
  have hlinks : s.links d = 0 := h.free d (Bool.eq_false_of_not_eq_true hfree)
  obtain ⟨p, t, t', rest, hperm, -⟩ := h.dots d hd
  have hself : d ∈ s.refs d := by
    have hmem : (⟨d, t, [46]⟩ : Dirent) ∈ s.recs d := hperm.symm.subset List.mem_cons_self
    exact List.mem_map.2 ⟨_, hmem, rfl⟩
  have hone : 1 ≤ s.links d := one_le_names hd hself
  omega

theorem Counted.links_eq (h : s.Counted x) (hused : s.used i = true) (hx : x i = 0) :
    (s.inode i).nlink.toNat = s.links i := by
  have hle := h.le i
  have hmax : LINK_MAX = 32000 := rfl
  rw [h.count i hused, hx, add_zero, BitVec.ofInt_natCast, BitVec.toNat_ofNat]
  omega

/-- `i_nlink += δ` -/
theorem Counted.addLinks {b : BitVec 16} {δ : ℤ} (h : s.Counted x) (j : ℕ) (hb : b = BitVec.ofInt 16 δ) :
    (s.addLinks j b).Counted (bump x j δ) := by
  refine ⟨fun i hused => ?_, h.free, h.le, h.dots⟩
  have hcount := h.count i hused
  unfold NameSys.addLinks modify bump
  dsimp only
  by_cases hi : i = j
  · subst hi
    rw [if_pos rfl, if_pos rfl, hcount, hb, ← BitVec.ofInt_add, add_assoc]
    rfl
  · rw [if_neg hi, if_neg hi, add_zero]
    exact hcount

theorem minus_one : (-1 : BitVec 16) = BitVec.ofInt 16 (-1) := by decide

theorem minus_two : (-2 : BitVec 16) = BitVec.ofInt 16 (-2) := by decide

/-- A directory gets other records. -/
theorem Counted.setRecs (h : s.Counted x) (hdots : d ∈ s.dirs → ∃ p, HasDots d p l)
    (hlinks : ∀ i, ((s.setRecs d l).links i : ℤ) + y i = s.links i + x i)
    (hle : ∀ i, (s.setRecs d l).links i ≤ LINK_MAX)
    (hfree : ∀ i, s.used i = false → (s.setRecs d l).links i = 0) : (s.setRecs d l).Counted y := by
  refine ⟨fun i hused => ?_, hfree, hle, fun e he => ?_⟩
  · rw [hlinks i]
    exact h.count i hused
  · by_cases hed : e = d
    · subst hed
      unfold NameSys.setRecs
      dsimp only
      rw [Function.update_self]
      exact hdots he
    · unfold NameSys.setRecs
      dsimp only
      rw [Function.update_of_ne hed]
      exact h.dots e he

theorem links_setRecs (s : NameSys) (d : ℕ) (l : List Dirent) (i : ℕ) :
    (s.setRecs d l).links i = names s.dirs (Function.update s.refs d ↑(l.map Dirent.ino)) i := by
  unfold links
  rw [setRecs_refs]
  rfl

theorem links_entered (hd : d ∈ s.dirs) (he : Entered (s.recs d) l j) (i : ℕ) :
    (s.setRecs d l).links i = s.links i + if i = j then 1 else 0 := by
  obtain ⟨e, -, rfl, hperm⟩ := he
  rw [links_setRecs]
  exact names_cons hd (Multiset.coe_eq_coe.2 (hperm.map Dirent.ino)) i

/-- A record that names `j` is added. -/
theorem Counted.enter (h : s.Counted x) (hd : d ∈ s.dirs) (he : Entered (s.recs d) l j)
    (hused : s.used j = true) (hj : s.links j < LINK_MAX) : (s.setRecs d l).Counted (bump x j (-1)) := by
  have hlinks : ∀ i, (s.setRecs d l).links i = s.links i + if i = j then 1 else 0 := links_entered hd he
  refine h.setRecs (fun _ => ?_) (fun i => ?_) (fun i => ?_) fun i hfree => ?_
  · exact (h.dots d hd).imp fun p hp => hp.entered he
  · rw [hlinks i]
    unfold bump
    split_ifs <;> push_cast <;> ring
  · have hle := h.le i
    rw [hlinks i]
    split_ifs with hi
    · subst hi
      omega
    · exact hle
  · rw [hlinks i, if_neg (ne_of_used hused hfree)]
    exact h.free i hfree

/-- A record that names `j` is taken out. -/
theorem Counted.remove (h : s.Counted x) (hd : d ∈ s.dirs) (he : Entered l (s.recs d) j) :
    (s.setRecs d l).Counted (bump x j 1) := by
  have hlinks : ∀ i, (s.setRecs d l).links i + (if i = j then 1 else 0) = s.links i := by
    obtain ⟨e, -, rfl, hperm⟩ := he
    intro i
    rw [links_setRecs]
    exact names_drop hd (Multiset.coe_eq_coe.2 (hperm.map Dirent.ino)) i
  refine h.setRecs (fun _ => ?_) (fun i => ?_) (fun i => ?_) fun i hfree => ?_
  · exact (h.dots d hd).imp fun p hp => hp.removed he
  · rw [← hlinks i]
    unfold bump
    split_ifs <;> push_cast <;> ring
  · have hle := h.le i
    have hone := hlinks i
    omega
  · have hnone := h.free i hfree
    have hone := hlinks i
    omega

theorem links_same (hl : l.Perm (s.recs d)) (i : ℕ) : (s.setRecs d l).links i = s.links i := by
  have hrefs : (↑(l.map Dirent.ino) : Multiset ℕ) = s.refs d := Multiset.coe_eq_coe.2 (hl.map Dirent.ino)
  rw [links_setRecs, hrefs, Function.update_eq_self]
  rfl

/-- Records change that do not count. -/
theorem Counted.setRecs_eq (h : s.Counted x) (hdots : d ∈ s.dirs → ∃ p, HasDots d p l)
    (hlinks : ∀ i, (s.setRecs d l).links i = s.links i) : (s.setRecs d l).Counted x := by
  refine h.setRecs hdots (fun i => ?_) (fun i => ?_) fun i hfree => ?_
  · rw [hlinks i]
  · rw [hlinks i]
    exact h.le i
  · rw [hlinks i]
    exact h.free i hfree

/-- The records of a directory are put in another order. -/
theorem Counted.same (h : s.Counted x) (hl : l.Perm (s.recs d)) : (s.setRecs d l).Counted x :=
  h.setRecs_eq (fun hd => (h.dots d hd).imp fun _ hp => hp.perm hl) (links_same hl)

theorem links_outside (hd : d ∉ s.dirs) (i : ℕ) : (s.setRecs d l).links i = s.links i := by
  rw [links_setRecs]
  exact names_update_of_notMem hd _ i

/-- What is not a directory yet, or no more, gets records. -/
theorem Counted.outside (h : s.Counted x) (hd : d ∉ s.dirs) : (s.setRecs d l).Counted x :=
  h.setRecs_eq (fun hmem => absurd hmem hd) (links_outside hd)

/-- A free inode is put to use. -/
theorem Counted.alloc {ip : RenameInode} {δ : ℤ} (h : s.Counted 0) (hfree : s.used i = false)
    (hip : ip.nlink = BitVec.ofInt 16 δ) : (s.alloc i ip).Counted (bump 0 i δ) := by
  refine ⟨fun k hused => ?_, fun k hk => ?_, h.le, h.dots⟩
  · unfold NameSys.alloc at hused ⊢
    unfold bump
    dsimp only at hused ⊢
    by_cases hk : k = i
    · subst hk
      have hnone : links { s with
          used := Function.update s.used k true, inode := fun w => if w = k then ip else s.inode w } k = 0 :=
        h.free k hfree
      rw [if_pos rfl, if_pos rfl, hip, hnone]
      simp
    · rw [Function.update_of_ne hk] at hused
      rw [if_neg hk, if_neg hk, add_zero]
      exact h.count k hused
  · unfold NameSys.alloc at hk
    dsimp only at hk
    by_cases hki : k = i
    · subst hki
      rw [Function.update_self] at hk
      cases hk
    · rw [Function.update_of_ne hki] at hk
      exact h.free k hk

/-- A new inode that no record names is given up. -/
theorem Counted.bad (h : s.Counted x) (hlinks : s.links i = 0) (hx : ∀ k, k ≠ i → x k = y k) (hy : y i = 0)
    (e : Errno) : (makeBad s i e).2.Counted y := by
  refine ⟨fun k hused => ?_, h.free, h.le, h.dots⟩
  unfold makeBad modify
  dsimp only
  by_cases hk : k = i
  · subst hk
    have hnone : links { s with
        inode := fun w => if w = k then { s.inode k with nlink := 0 } else s.inode w } k = 0 := hlinks
    rw [if_pos rfl, hnone, hy]
    rfl
  · rw [if_neg hk, ← hx k hk]
    exact h.count k hused

theorem count_pair (k i p : ℕ) :
    ((if k = i then 1 else 0) + if k = p then 1 else 0) = Multiset.count k ({i, p} : Multiset ℕ) := by
  rw [Multiset.insert_eq_cons, Multiset.count_cons, Multiset.count_singleton, add_comm]

/-- A directory is made of an inode that has the two records of one. -/
theorem Counted.addDir (h : s.Counted x) (hi : i ∉ s.dirs) (hdots : HasDots i p (s.recs i))
    (hrefs : s.refs i = {i, p}) (hused : s.used i = true) (hp : s.used p = true) (hne : i ≠ p)
    (hle : s.links i < LINK_MAX) (hlep : s.links p < LINK_MAX) :
    (s.addDir i).Counted (bump (bump x i (-1)) p (-1)) := by
  have hlinks : ∀ k, (s.addDir i).links k = ((if k = i then 1 else 0) + if k = p then 1 else 0) + s.links k := by
    intro k
    rw [count_pair, ← hrefs]
    exact names_insert hi k
  refine ⟨fun k hk => ?_, fun k hfree => ?_, fun k => ?_, fun d hd => ?_⟩
  · have hcount := h.count k hk
    have hsum : ((s.addDir i).links k : ℤ) + bump (bump x i (-1)) p (-1) k = s.links k + x k := by
      rw [hlinks k]
      unfold bump
      split_ifs <;> push_cast <;> ring
    rw [hsum]
    exact hcount
  · rw [hlinks k, if_neg (ne_of_used hused hfree), if_neg (ne_of_used hp hfree)]
    exact (zero_add _).trans (h.free k hfree)
  · have hlek := h.le k
    rw [hlinks k]
    split_ifs with hki hkp hkp
    · exact absurd (hki.symm.trans hkp) hne
    · subst hki
      omega
    · subst hkp
      omega
    · omega
  · rcases Finset.mem_insert.1 hd with rfl | hd
    · exact ⟨p, hdots⟩
    · exact h.dots d hd

/-- A directory that has its own two records only is one no more. -/
theorem Counted.dropDir (h : s.Counted x) (hd : d ∈ s.dirs) (hrefs : s.refs d = {d, p}) :
    (s.dropDir d).Counted (bump (bump x d 1) p 1) := by
  have hlinks : ∀ k, ((if k = d then 1 else 0) + if k = p then 1 else 0) + (s.dropDir d).links k = s.links k := by
    intro k
    rw [count_pair, ← hrefs]
    exact names_erase hd k
  refine ⟨fun k hk => ?_, fun k hfree => ?_, fun k => ?_, fun e he => ?_⟩
  · have hcount := h.count k hk
    have hsum : ((s.dropDir d).links k : ℤ) + bump (bump x d 1) p 1 k = s.links k + x k := by
      rw [← hlinks k]
      unfold bump
      split_ifs <;> push_cast <;> ring
    rw [hsum]
    exact hcount
  · have hnone := h.free k hfree
    have hsum := hlinks k
    omega
  · have hlek := h.le k
    have hsum := hlinks k
    omega
  · exact h.dots e (Finset.mem_of_mem_erase he)

end

/-! ### One call -/

section

variable {s : NameSys} {dvp vp : ℕ}

/-- **`ext2_makeinode`**, on every path. -/
theorem makeinode_counted {env : MakeEnv} (h : s.Counted 0) (hd : dvp ∈ s.dirs)
    (hvalloc : ∀ i, env.valloc = .ok i → s.used i = false ∧ env.direnter.Enters (s.recs dvp) i) :
    (ext2Makeinode dvp env s).2.Counted 0 := by
  unfold ext2Makeinode
  cases hi : env.valloc with
  | error e => exact h
  | ok i =>
    obtain ⟨hfree, hans⟩ := hvalloc i hi
    have hnone : s.links i = 0 := h.free i hfree
    have hmade : (s.alloc i (newInode env.fresh i (s.inode dvp) false 1)).Counted (bump 0 i 1) := h.alloc hfree rfl
    have hother : ∀ k, k ≠ i → bump 0 i 1 k = (0 : ℕ → ℤ) k := fun k hk => bump_ne hk 1
    dsimp only
    cases env.update with
    | some e => exact hmade.bad hnone hother rfl e
    | none =>
      dsimp only
      unfold DirAnswer.Enters at hans
      cases herror : env.direnter.error with
      | some e =>
        rw [herror] at hans
        exact (hmade.same hans).bad ((links_same hans i).trans hnone) hother rfl e
      | none =>
        rw [herror] at hans
        have hlt : s.links i < LINK_MAX := by
          rw [hnone]
          decide
        exact (hmade.enter hd hans (Function.update_self ..) hlt).congr (bump_back 0 i 1)

/-- `ext2_mknod` does no more to the names than `ext2_makeinode`. -/
theorem mknod_state (dvp : ℕ) (env : MakeEnv) (update vget : Option Errno) (s : NameSys) :
    (ext2Mknod dvp env update vget s).2 = (ext2Makeinode dvp env s).2 := by
  unfold ext2Mknod
  dsimp only
  split <;> rfl

theorem symlink_state (dvp : ℕ) (env : MakeEnv) (write : Option Errno) (s : NameSys) :
    (ext2Symlink dvp env write s).2 = (ext2Makeinode dvp env s).2 := by
  unfold ext2Symlink
  dsimp only
  split <;> rfl

/-- **`ext2_remove`** -/
theorem remove_counted {ans : DirAnswer} (h : s.Counted 0) (hd : dvp ∈ s.dirs)
    (hans : ans.Removes (s.recs dvp) vp) : (ext2Remove vp dvp ans s).2.Counted 0 := by
  unfold ext2Remove
  split
  · exact h
  dsimp only
  unfold DirAnswer.Removes at hans
  cases herror : ans.error with
  | some e =>
    rw [herror] at hans
    exact h.same hans
  | none =>
    rw [herror] at hans
    exact ((h.remove hd hans).addLinks vp minus_one).congr (bump_back 0 vp 1)

/-- **`ext2_link`** -/
theorem link_counted {update : Option Errno} {ans : DirAnswer} (h : s.Counted 0) (hd : dvp ∈ s.dirs)
    (hused : s.used vp = true) (hans : ans.Enters (s.recs dvp) vp) :
    (ext2Link vp dvp update ans s).2.Counted 0 := by
  unfold ext2Link
  split
  · exact h
  next hmax =>
  split
  · exact h
  have hlt : s.links vp < LINK_MAX := by
    have hcount := h.links_eq hused rfl
    omega
  have hraised : (s.addLinks vp 1).Counted (bump 0 vp 1) := h.addLinks vp rfl
  have hback := bump_back 0 vp 1
  dsimp only
  cases update with
  | some e => exact (hraised.addLinks vp minus_one).congr hback
  | none =>
    dsimp only
    unfold DirAnswer.Enters at hans
    cases herror : ans.error with
    | some e =>
      rw [herror] at hans
      exact ((hraised.same hans).addLinks vp minus_one).congr hback
    | none =>
      rw [herror] at hans
      exact (hraised.enter hd hans hused hlt).congr hback

theorem bump_other (i p k : ℕ) (hk : k ≠ i) : bump (bump (bump 0 i 2) p 1) p (-1) k = (0 : ℕ → ℤ) k :=
  (bump_back _ p 1 k).trans (bump_ne hk 2)

/-- The beginning of `ext2_mkdir`: an inode with two links, and one more link of the parent. -/
theorem alloc_raised {i : ℕ} (h : s.Counted 0) (hfree : s.used i = false) (env : MkdirEnv) (dvp : ℕ) :
    ((s.alloc i (newInode env.fresh i (s.inode dvp) true 2)).addLinks dvp 1).Counted
      (bump (bump 0 i 2) dvp 1) :=
  (h.alloc hfree rfl).addLinks dvp rfl

/-- The records of a new directory are its own two. -/
theorem templateRecs_dots (ftype : Bool) (i p : ℕ) : HasDots i p (templateRecs ftype i p) := by
  cases ftype <;> exact ⟨_, _, [], .refl _, nofun⟩

theorem templateRecs_refs (ftype : Bool) (i p : ℕ) :
    (↑((templateRecs ftype i p).map Dirent.ino) : Multiset ℕ) = {i, p} := by
  cases ftype <;> rfl

/-- The end of `ext2_mkdir`: the new directory gets its records, and the parent one for it. -/
theorem mkdir_enter {ftype : Bool} {ans : DirAnswer} {i p : ℕ} (h : s.Counted (bump (bump 0 i 2) p 1))
    (hp : p ∈ s.dirs) (hi : i ∉ s.dirs) (hne : i ≠ p) (hused : s.used i = true) (hpused : s.used p = true)
    (hnone : s.links i = 0) (hlt : s.links p < LINK_MAX) (hans : ans.Enters (s.recs p) i) :
    (match ans.error with
      | some e => makeBad (((s.setRecs i (templateRecs ftype i p)).setRecs p ans.recs).addLinks p (-1)) i e
      | none => (.done none, ((s.setRecs i (templateRecs ftype i p)).setRecs p ans.recs).addDir i)).2.Counted 0 := by
  obtain ⟨s₁, hs₁⟩ : ∃ s₁, s₁ = s.setRecs i (templateRecs ftype i p) := ⟨_, rfl⟩
  have hlinks : ∀ k, s₁.links k = s.links k := by
    rw [hs₁]
    exact links_outside hi
  have hdirs : s₁.dirs = s.dirs := by
    rw [hs₁]
    rfl
  have hparent : s₁.recs p = s.recs p := by
    rw [hs₁]
    exact Function.update_of_ne hne.symm _ _
  have hwritten : s₁.Counted (bump (bump 0 i 2) p 1) := by
    rw [hs₁]
    exact h.outside hi
  have hrecs : (s₁.setRecs p ans.recs).recs i = templateRecs ftype i p := by
    rw [hs₁]
    exact (Function.update_of_ne hne _ _).trans (Function.update_self ..)
  have hstill : s₁.used = s.used := by
    rw [hs₁]
    rfl
  rw [← hs₁]
  rw [← hdirs] at hp hi
  rw [← hparent] at hans
  rw [← hlinks] at hnone hlt
  rw [← hstill] at hused hpused
  unfold DirAnswer.Enters at hans
  cases herror : ans.error with
  | some e =>
    rw [herror] at hans
    exact ((hwritten.same hans).addLinks p minus_one).bad ((links_same hans i).trans hnone) (bump_other i p) rfl e
  | none =>
    rw [herror] at hans
    have hentered := hwritten.enter hp hans hused (by rw [hnone]; decide)
    have hlinksi := links_entered hp hans i
    have hlinksp := links_entered hp hans p
    rw [if_pos rfl, hnone] at hlinksi
    rw [if_neg hne.symm] at hlinksp
    have hdots : HasDots i p ((s₁.setRecs p ans.recs).recs i) := by
      rw [hrecs]
      exact templateRecs_dots ftype i p
    have hrefs : (s₁.setRecs p ans.recs).refs i = {i, p} := by
      unfold refs
      rw [hrecs]
      exact templateRecs_refs ftype i p
    have hmade := hentered.addDir hi hdots hrefs hused hpused hne (by rw [hlinksi]; decide) (by rw [hlinksp]; exact hlt)
    refine hmade.congr fun k => ?_
    unfold bump
    rw [Pi.zero_apply]
    split_ifs <;> rfl

/-- **`ext2_mkdir`**, unless the parent cannot be written: then its new link stays. -/
theorem mkdir_counted {env : MkdirEnv} (h : s.Counted 0) (hd : dvp ∈ s.dirs) (hparent : env.updateParent = none)
    (hvalloc : ∀ i, env.valloc = .ok i → s.used i = false ∧ env.direnter.Enters (s.recs dvp) i) :
    (ext2Mkdir dvp env s).2.Counted 0 := by
  unfold ext2Mkdir
  split
  · exact h
  next hmax =>
  cases hi : env.valloc with
  | error e => exact h
  | ok i =>
    obtain ⟨hfree, hans⟩ := hvalloc i hi
    have hnone : s.links i = 0 := h.free i hfree
    have hdused : s.used dvp = true := h.dir_used hd
    have hnew : i ∉ s.dirs := fun hmem => ne_of_used (h.dir_used hmem) hfree rfl
    have hne : i ≠ dvp := ne_of_used hdused hfree
    have hlt : s.links dvp < LINK_MAX := by
      have hcount := h.links_eq hdused rfl
      omega
    have hraised := alloc_raised h hfree env dvp
    have hdused' : Function.update s.used i true dvp = true := by
      rw [Function.update_of_ne hne.symm]
      exact hdused
    rw [hparent]
    dsimp only
    cases env.balloc.orElse fun _ => env.write with
    | some e => exact (hraised.addLinks dvp minus_one).bad hnone (bump_other i dvp) rfl e
    | none =>
      exact mkdir_enter hraised hd hnew hne (Function.update_self ..) hdused' hnone hlt hans

/-- **The parent cannot be written**: `ext2_mkdir` makes no directory, and leaves the parent one link that
no record accounts for. -/
theorem mkdir_unwritten {env : MkdirEnv} {i : ℕ} {e : Errno} (h : s.Counted 0) (hd : dvp ∈ s.dirs)
    (hlt : (s.inode dvp).nlink.toNat < LINK_MAX) (hi : env.valloc = .ok i) (hfree : s.used i = false)
    (hparent : env.updateParent = some e) :
    (ext2Mkdir dvp env s).1 = failed e ∧ (ext2Mkdir dvp env s).2.Counted (bump 0 dvp 1) := by
  have hne : i ≠ dvp := ne_of_used (h.dir_used hd) hfree
  have hraised := alloc_raised h hfree env dvp
  have hother : ∀ k, k ≠ i → bump (bump 0 i 2) dvp 1 k = bump 0 dvp 1 k := by
    intro k hk
    unfold bump
    rw [if_neg hk, add_zero]
  have hown : bump 0 dvp 1 i = 0 := bump_ne hne 1
  unfold ext2Mkdir
  rw [if_neg hlt.not_ge, hi]
  dsimp only
  rw [hparent]
  exact ⟨rfl, hraised.bad (h.free i hfree) hother hown e⟩

/-- **`ext2_rmdir`**, on every path. -/
theorem rmdir_counted {read : Bool} {ans : DirAnswer} {truncate : Option Errno} (h : s.Counted 0)
    (hd : dvp ∈ s.dirs) (hvp : vp ∈ s.dirs) (hne : vp ≠ dvp) (hans : ans.Removes (s.recs dvp) vp) :
    (ext2Rmdir vp dvp read ans truncate s).2.Counted 0 := by
  unfold ext2Rmdir
  cases hcheck : rmdirCheck (rmdirInode (s.inode vp)) (rmdirInode (s.inode dvp)) (s.dirempty read vp dvp) with
  | some e => exact h
  | none =>
    have hempty : s.dirempty read vp dvp = true := by
      by_contra hfull
      unfold rmdirCheck at hcheck
      rw [if_pos (.inr (Bool.eq_false_of_not_eq_true hfull))] at hcheck
      cases hcheck
    have hrefs : s.refs vp = {vp, dvp} := by
      obtain ⟨p, hdots⟩ := h.dots vp hvp
      unfold dirempty at hempty
      rw [Bool.and_eq_true, List.all_eq_true] at hempty
      exact hdots.empty fun e he => of_decide_eq_true (hempty.2 e he)
    dsimp only
    unfold DirAnswer.Removes at hans
    cases herror : ans.error with
    | some e =>
      rw [herror] at hans
      exact h.same hans
    | none =>
      rw [herror] at hans
      have hkept : (s.setRecs dvp ans.recs).refs vp = {vp, dvp} := by
        rw [setRecs_refs, Function.update_of_ne hne]
        exact hrefs
      have hlowered := ((h.remove hd hans).addLinks dvp minus_one).addLinks vp minus_two
      have hdropped := (hlowered.dropDir hvp hkept).congr (y := 0) fun k => by
        unfold bump
        rw [Pi.zero_apply]
        split_ifs <;> rfl
      dsimp only
      split
      · exact hdropped.outside (Finset.notMem_erase vp s.dirs)
      · exact hdropped

/-- **`ext2_inactive`** frees no inode that a record names. -/
theorem inactive_counted (h : s.Counted 0) (i : ℕ) : (ext2Inactive i s).Counted 0 := by
  unfold ext2Inactive
  split
  swap
  · exact h
  next hgone =>
  have hnone : s.links i = 0 := by
    cases hused : s.used i with
    | false => exact h.free i hused
    | true =>
      have hcount := h.links_eq hused rfl
      have hle := h.le i
      have hmax : LINK_MAX = 32000 := rfl
      rw [BitVec.toInt_eq_toNat_of_lt (by omega)] at hgone
      omega
  refine ⟨fun k hk => ?_, fun k hk => ?_, h.le, h.dots⟩ <;> dsimp only at hk
  · have hki : k ≠ i := by
      rintro rfl
      rw [Function.update_self] at hk
      cases hk
    rw [Function.update_of_ne hki] at hk
    exact h.count k hk
  · by_cases hki : k = i
    · subst hki
      exact hnone
    · rw [Function.update_of_ne hki] at hk
      exact h.free k hk

end

/-! ### Runs -/

/-- The calls. -/
inductive NameCall where
  | create (dvp : ℕ) (env : MakeEnv)
  | mknod (dvp : ℕ) (env : MakeEnv) (update vget : Option Errno)
  | symlink (dvp : ℕ) (env : MakeEnv) (write : Option Errno)
  | mkdir (dvp : ℕ) (env : MkdirEnv)
  | link (vp tdvp : ℕ) (update : Option Errno) (direnter : DirAnswer)
  | remove (vp dvp : ℕ) (dirremove : DirAnswer)
  | rmdir (vp dvp : ℕ) (read : Bool) (dirremove : DirAnswer) (truncate : Option Errno)
  | inactive (i : ℕ)

/-- A call, whatever it returns. -/
def nameStep : NameCall → NameSys → NameSys
  | .create dvp env, s => (ext2Makeinode dvp env s).2
  | .mknod dvp env update vget, s => (ext2Mknod dvp env update vget s).2
  | .symlink dvp env write, s => (ext2Symlink dvp env write s).2
  | .mkdir dvp env, s => (ext2Mkdir dvp env s).2
  | .link vp tdvp update direnter, s => (ext2Link vp tdvp update direnter s).2
  | .remove vp dvp dirremove, s => (ext2Remove vp dvp dirremove s).2
  | .rmdir vp dvp read dirremove truncate, s => (ext2Rmdir vp dvp read dirremove truncate s).2
  | .inactive i, s => ext2Inactive i s

/-- `ext2_valloc` returns a free inode, and `ext2_direnter` makes its record or fails. -/
def Makes (s : NameSys) (dvp : ℕ) (valloc : Except Errno ℕ) (direnter : DirAnswer) : Prop :=
  dvp ∈ s.dirs ∧ ∀ i, valloc = .ok i → s.used i = false ∧ direnter.Enters (s.recs dvp) i

/-- The condition on a call: it is for directories that are there and an inode in use, what it calls does
its work or fails, and the parent of a new directory can be written. -/
def NameOk : NameCall → NameSys → Prop
  | .create dvp env, s => s.Makes dvp env.valloc env.direnter
  | .mknod dvp env _ _, s => s.Makes dvp env.valloc env.direnter
  | .symlink dvp env _, s => s.Makes dvp env.valloc env.direnter
  | .mkdir dvp env, s => s.Makes dvp env.valloc env.direnter ∧ env.updateParent = none
  | .link vp tdvp _ direnter, s => tdvp ∈ s.dirs ∧ s.used vp = true ∧ direnter.Enters (s.recs tdvp) vp
  | .remove vp dvp dirremove, s => dvp ∈ s.dirs ∧ dirremove.Removes (s.recs dvp) vp
  | .rmdir vp dvp _ dirremove _, s =>
      dvp ∈ s.dirs ∧ vp ∈ s.dirs ∧ vp ≠ dvp ∧ dirremove.Removes (s.recs dvp) vp
  | .inactive _, _ => True

/-- Between two calls: the counts are right. -/
def LinksRight (s : NameSys) : Prop := s.Counted 0

/-- **What a call keeps.** -/
theorem nameStep_counted (c : NameCall) (s : NameSys) (h : s.LinksRight) (hok : NameOk c s) :
    (nameStep c s).LinksRight := by
  cases c with
  | create dvp env => exact makeinode_counted h hok.1 hok.2
  | mknod dvp env update vget =>
    have hmade := makeinode_counted h hok.1 hok.2
    rwa [← mknod_state dvp env update vget s] at hmade
  | symlink dvp env write =>
    have hmade := makeinode_counted h hok.1 hok.2
    rwa [← symlink_state dvp env write s] at hmade
  | mkdir dvp env => exact mkdir_counted h hok.1.1 hok.2 hok.1.2
  | link vp tdvp update direnter => exact link_counted h hok.1 hok.2.1 hok.2.2
  | remove vp dvp dirremove => exact remove_counted h hok.1 hok.2
  | rmdir vp dvp read dirremove truncate => exact rmdir_counted h hok.1 hok.2.1 hok.2.2.1 hok.2.2.2
  | inactive i => exact inactive_counted h i

/-- **The link counts of a run.**  However its calls end, every inode in use has as many links as records
name it, no record names a free inode, and every directory has its own two records. -/
theorem link_runs {s : NameSys} (h : Reach nameStep NameOk LinksRight s) :
    (∀ i, s.used i = true → (s.inode i).nlink.toNat = s.links i) ∧
      (∀ d ∈ s.dirs, ∀ e ∈ s.recs d, s.used e.ino = true) ∧ ∀ d ∈ s.dirs, ∃ p, HasDots d p (s.recs d) := by
  have hinv : s.LinksRight := h.invariant (fun _ hstart => hstart) nameStep_counted
  refine ⟨fun i hused => hinv.links_eq hused rfl, fun d hd e he => ?_, hinv.dots⟩
  by_contra hused
  have hnone : s.links e.ino = 0 := hinv.free e.ino (Bool.eq_false_of_not_eq_true hused)
  have hone : 1 ≤ s.links e.ino := one_le_names hd (List.mem_map_of_mem he)
  omega

/-- A volume with a root directory and nothing else, whose inodes are like `ip`. -/
def rootOnly (ip : RenameInode) : NameSys where
  inode _ := { ip with nlink := 2 }
  used i := i == ROOTINO
  dirs := {ROOTINO}
  recs _ := templateRecs true ROOTINO ROOTINO

/-- Such a volume is a start. -/
theorem rootOnly_right (ip : RenameInode) : (rootOnly ip).LinksRight := by
  have hlinks : ∀ i, (rootOnly ip).links i = if i = ROOTINO then 2 else 0 := by
    intro i
    have hcount : (rootOnly ip).links i = Multiset.count i ({ROOTINO, ROOTINO} : Multiset ℕ) :=
      Finset.sum_singleton _ _
    rw [hcount, ← count_pair]
    split_ifs <;> rfl
  refine ⟨fun i hused => ?_, fun i hfree => ?_, fun i => ?_, fun d hd => ?_⟩
  · have hi : i = ROOTINO := eq_of_beq hused
    rw [hlinks, if_pos hi]
    rfl
  · have hi : i ≠ ROOTINO := ne_of_beq_false hfree
    rw [hlinks, if_neg hi]
  · rw [hlinks]
    split_ifs <;> decide
  · obtain rfl := Finset.mem_singleton.1 hd
    exact ⟨_, templateRecs_dots true ROOTINO ROOTINO⟩

end NameSys

end Ext2fs
