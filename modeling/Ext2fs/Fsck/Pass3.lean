import Ext2fs.Fsck.Propagate

/-!
# What becomes of orphan directories

The first walk of `propagate` marks the tree of the root.  From then on the first child of the root is
marked, so that every later walk ends at the root at once: `pass3` marks the directory it links and none
of those below it.

* `propagate_first`, `propagate_again` — the walks;
* `pass3_spec` — `pass3` comes to its end, and a directory it does not link keeps its state;
* `pass3_flat` — orphans that are all single directories;
* **`pass3_iff`** — the forests that are treated right.
-/

namespace Ext2fs.Fsck

open ChildSibling Relation StateTransition

variable (F : Forest) {s t : Dirs} {d : ℕ}

/-! ### The first walk -/

/-- The lists of children after the first call of `propagate`. -/
def Forest.kids (p : ℕ) : List ℕ := kidsOf F.start.par F.dirs p

theorem par_eq_some {p : ℕ} : s.par d = some p ↔ d ≠ ROOTINO ∧ p ≠ 0 ∧ s.i_parent d = p := by
  unfold Dirs.par
  split
  next h => exact iff_of_false (Option.some_ne_none p).symm (by rcases h with h | h <;> omega)
  next h =>
    rw [Option.some.injEq]
    exact ⟨fun hp => ⟨fun hc => h (.inr hc), fun hc => h (.inl (hp.trans hc)), hp⟩, fun hp => hp.2.2⟩

theorem mem_kids {p : ℕ} : d ∈ F.kids p ↔ d ∈ F.dirs ∧ d ≠ ROOTINO ∧ p ≠ 0 ∧ F.parent d = p := by
  unfold Forest.kids
  rw [mem_kidsOf, par_eq_some]
  rfl

/-- The directories below the root are those whose chain reaches it. -/
theorem below_iff (hd : d ∈ F.dirs) : Below F.kids ROOTINO d ↔ ReachesRoot F.parent d := by
  constructor
  · intro h
    induction h with
    | refl => exact .root
    | @tail p x _ hx ih =>
      obtain ⟨hmem, -, hp, hpar⟩ := (mem_kids F).1 hx
      have hpd : p ∈ F.dirs := hpar ▸ F.parent_mem x hmem (hpar ▸ hp)
      exact .up (hpar ▸ hp) (hpar ▸ ih hpd)
  · intro h
    induction h with
    | root => exact ReflTransGen.refl
    | @up x hx _ ih =>
      by_cases hroot : x = ROOTINO
      · exact hroot ▸ ReflTransGen.refl
      · exact ReflTransGen.tail (ih (F.parent_mem x hd hx)) ((mem_kids F).2 ⟨hd, hroot, hx, rfl⟩)

theorem mem_of_below {x : ℕ} (h : Below F.kids ROOTINO x) : x ∈ F.dirs := by
  induction h with
  | refl => exact F.root_mem
  | tail _ hx _ => exact ((mem_kids F).1 hx).1

/-- A directory with a parent is in use. -/
theorem state_of_parent (hd : d ∈ F.dirs) (hp : F.parent d ≠ 0) : F.statemap d = .dstate :=
  (F.state_cases d hd).resolve_right fun hc => hp hc.2

/-- The state after the first call. -/
structure First (s : Dirs) : Prop where
  inpsort : s.inpsort = F.dirs
  i_parent : s.i_parent = F.parent
  links : s.links = F.start.links.hang F.start.par F.dirs
  lfdir : s.lfdir = 0
  lostfound : s.lostfound = []
  reached : ∀ d, ReachesRoot F.parent d → d ∈ F.dirs → s.statemap d = .dfound
  others : ∀ d, ¬(ReachesRoot F.parent d ∧ d ∈ F.dirs) → s.statemap d = F.statemap d

/-- The lists are hung up properly. -/
theorem start_hung : Hung (F.start.links.hang F.start.par F.dirs) F.kids where
  seg p := hang_spec F.nodup p
  parent p k hk := by
    obtain ⟨hmem, hpar⟩ := mem_kidsOf.1 hk
    exact hang_parent F.nodup hmem hpar
  nodup p := kidsOf_nodup F.nodup p

theorem kids_rank (p k : ℕ) (hk : k ∈ F.kids p) : F.rank p < F.rank k := by
  obtain ⟨hmem, hroot, hp, hpar⟩ := (mem_kids F).1 hk
  have hlt := F.rank_lt k hmem hroot (hpar ▸ hp)
  rwa [hpar] at hlt

/-- **The first walk** comes to its end, and marks what is below the root. -/
theorem propagate_first :
    ∃ N, ∃ s, First F s ∧ ∀ n, N ≤ n → F.start.propagate n = some s := by
  have hbound : ∀ p, ∀ k ∈ F.kids p, F.rank k ≤ (F.dirs.map F.rank).sum := fun p k hk =>
    List.le_sum_of_mem (List.mem_map_of_mem ((mem_kids F).1 hk).1)
  obtain ⟨st, hwalk, hmark, hkeep⟩ := walk_spec .dstate .dfound (start_hung F) (kids_rank F) hbound
    (by decide) ROOTINO F.statemap fun x hx hne => by
      rcases ReflTransGen.cases_tail hx with heq | ⟨p, -, hk⟩
      · exact absurd heq hne
      · obtain ⟨hmem, -, hp, hpar⟩ := (mem_kids F).1 hk
        exact state_of_parent F hmem (hpar ▸ hp)
  have hnone : F.start.par ROOTINO = none := if_pos (.inr rfl)
  have hnext : (F.start.links.hang F.start.par F.dirs).next ROOTINO = none := by
    obtain ⟨h1, h2⟩ : (F.start.links.hang F.start.par F.dirs).sibling ROOTINO = F.start.links.sibling ROOTINO ∧
        (F.start.links.hang F.start.par F.dirs).parent ROOTINO = F.start.links.parent ROOTINO := hang_root hnone
    unfold Links.next
    rw [h1, h2]
    rfl
  rw [hnext] at hwalk
  obtain ⟨N, hN⟩ := Loop.runFor_of_reaches hwalk rfl
  refine ⟨N, { F.start with links := F.start.links.hang F.start.par F.dirs, statemap := st },
    ⟨rfl, rfl, rfl, rfl, rfl, fun d hd hmem => ?_, fun d hd => ?_⟩, fun n hn => ?_⟩
  · exact hmark d ((below_iff F hmem).2 hd)
  · refine hkeep d fun hc => hd ⟨(below_iff F (mem_of_below F hc)).1 hc, mem_of_below F hc⟩
  · show (Loop.runFor (walk (F.start.links.hang F.start.par F.dirs) .dstate .dfound) n
      (some ROOTINO, F.statemap)).map _ = _
    rw [hN n hn]
    rfl

/-! ### The later walks -/

/-- The walk has been over the tree of the root: its first child is marked, whatever list it is in. -/
structure Walked (s : Dirs) : Prop where
  root : s.statemap ROOTINO = .dfound
  sibling : s.links.sibling ROOTINO = none
  parent : s.links.parent ROOTINO = none
  child : ∀ c, s.links.child ROOTINO = some c → s.statemap c ≠ .dstate
  kids : ∀ d ∈ s.inpsort, d ≠ ROOTINO → s.i_parent d = ROOTINO → s.statemap d ≠ .dstate

/-- The lists are made again. -/
def Dirs.rehang (s : Dirs) : Dirs := { s with links := s.links.hang s.par s.inpsort }

theorem Walked.rehang (h : Walked s) : Walked s.rehang := by
  have hnone : s.par ROOTINO = none := if_pos (.inr rfl)
  obtain ⟨h1, h2⟩ : (s.links.hang s.par s.inpsort).sibling ROOTINO = s.links.sibling ROOTINO ∧
      (s.links.hang s.par s.inpsort).parent ROOTINO = s.links.parent ROOTINO := hang_root hnone
  refine ⟨h.root, h1.trans h.sibling, h2.trans h.parent, fun c hc => ?_, h.kids⟩
  rcases hang_child hc with hold | ⟨hmem, hpar⟩
  · exact h.child c hold
  · obtain ⟨hroot, -, hp⟩ := par_eq_some.1 hpar
    exact h.kids c hmem hroot hp

/-- **Every later walk** ends at the root, and changes nothing but the lists. -/
theorem propagate_again (h : Walked s) {n : ℕ} (hn : 2 ≤ n) : s.propagate n = some s.rehang := by
  have hh := h.rehang
  have hkeep : Function.update s.statemap ROOTINO .dfound = s.statemap := by
    rw [← h.root]
    exact Function.update_eq_self ..
  have hnext : s.rehang.links.next ROOTINO = none := by
    unfold Links.next
    rw [hh.sibling, hh.parent]
    rfl
  have hround : walk s.rehang.links .dstate .dfound (some ROOTINO, s.statemap) =
      some (none, s.statemap) := by
    rw [walk_some, hkeep, if_neg, hnext]
    intro hc
    obtain ⟨c, hchild, hnew⟩ := (Option.any_eq_true _ _).1 hc
    exact hh.child c hchild (of_decide_eq_true hnew)
  obtain ⟨m, rfl⟩ : ∃ m, n = m + 2 := ⟨n - 2, by omega⟩
  show (Loop.runFor (walk s.rehang.links .dstate .dfound) (m + 2) (some ROOTINO, s.statemap)).map _ = _
  unfold Loop.runFor
  rw [hround]
  rfl

theorem First.walked (h : First F s) : Walked s := by
  have hnone : F.start.par ROOTINO = none := if_pos (.inr rfl)
  obtain ⟨h1, h2⟩ : (F.start.links.hang F.start.par F.dirs).sibling ROOTINO = F.start.links.sibling ROOTINO ∧
      (F.start.links.hang F.start.par F.dirs).parent ROOTINO = F.start.links.parent ROOTINO := hang_root hnone
  have hkids : ∀ d ∈ F.dirs, d ≠ ROOTINO → F.parent d = ROOTINO → s.statemap d ≠ .dstate := by
    intro d hd _ hp
    rw [h.reached d (.up (by rw [hp]; decide) (hp ▸ .root)) hd]
    decide
  refine ⟨h.reached _ .root F.root_mem, ?_, ?_, fun c hc => ?_, fun d hd hroot hp => ?_⟩
  · rw [h.links, h1]
    rfl
  · rw [h.links, h2]
    rfl
  · rw [h.links] at hc
    rcases hang_child hc with hold | ⟨hmem, hpar⟩
    · cases hold
    · obtain ⟨hroot, -, hp⟩ := par_eq_some.1 hpar
      exact hkids c hmem hroot hp
  · rw [h.inpsort] at hd
    rw [h.i_parent] at hp
    exact hkids d hd hroot hp

/-! ### One directory is linked -/

/-- What holds between the calls of `pass3`. -/
structure Mid (s : Dirs) : Prop extends Walked s where
  /-- only directories that are known from the start are left to be found -/
  dstate : ∀ d, s.statemap d = .dstate → d ∈ F.dirs ∧ d ≠ ROOTINO
  /-- directories without a parent have not been linked -/
  noparent : ∀ d ∈ F.dirs, s.i_parent d = 0 → s.statemap d = .dstate ∨ s.statemap d = .dclear
  zero : s.statemap 0 ≠ .dstate
  lfdir : s.lfdir = 0 ∨ s.lfdir ≠ ROOTINO

theorem First.mid (h : First F s) : Mid F s := by
  have hback : ∀ d, s.statemap d = .dstate → ¬(ReachesRoot F.parent d ∧ d ∈ F.dirs) := by
    rintro d hd ⟨hr, hmem⟩
    rw [h.reached d hr hmem] at hd
    cases hd
  refine ⟨h.walked F, fun d hd => ?_, fun d hd hp => ?_, fun hc => ?_, .inl h.lfdir⟩
  · have hmem := F.mem_of_dstate d ((h.others d (hback d hd)).symm.trans hd)
    refine ⟨hmem, ?_⟩
    rintro rfl
    exact hback _ hd ⟨.root, hmem⟩
  · rw [h.i_parent] at hp
    have hnot : ¬(ReachesRoot F.parent d ∧ d ∈ F.dirs) := by
      rintro ⟨hr, -⟩
      cases hr with
      | root => exact absurd (F.root_parent.symm.trans hp) (by decide)
      | up hne _ => exact hne hp
    rw [h.others d hnot]
    exact (F.state_cases d hd).imp_right And.left
  · have hnot := hback 0 hc
    rw [h.others 0 hnot] at hc
    exact F.zero_not_mem (F.mem_of_dstate 0 hc)

theorem climb_spec (n : ℕ) (hd : s.statemap d = .dstate) :
    s.statemap (s.climb n d) = .dstate := by
  induction n generalizing d with
  | zero => exact hd
  | succ n ih =>
    unfold Dirs.climb
    split
    next => exact hd
    next hgo => exact ih (not_not.1 (not_or.1 hgo).2)

/-- A directory that `pass3` does not pass over. -/
theorem Mid.not_skips (h : Mid F s) (hd : d ∈ F.dirs) (hs : ¬s.Skips d) : s.statemap d = .dstate := by
  obtain ⟨hor, hclear⟩ := not_or.1 (not_or.1 hs).2
  rcases not_not.1 hor with hp | hst
  · exact (h.noparent d hd hp).resolve_right hclear
  · exact hst

/-- A directory to be found is not passed over. -/
theorem Mid.skips_iff (h : Mid F s) (hd : d ∈ F.dirs) : s.Skips d ↔ s.statemap d ≠ .dstate := by
  constructor
  · intro hs hst
    rcases hs with hroot | hor | hclear
    · exact (h.dstate d hst).2 hroot
    · exact hor (.inr hst)
    · rw [hst] at hclear
      cases hclear
  · intro hst
    by_contra hs
    exact hst (h.not_skips F hd hs)

/-- Where `lost+found` is. -/
theorem findLf_spec (h : Mid F s) :
    (s.findLf F.lf).lfdir ≠ ROOTINO ∧ (s.findLf F.lf).lfdir ≠ 0 ∧
      (s.findLf F.lf).links = s.links ∧ (s.findLf F.lf).lostfound = s.lostfound ∧
      (∀ d ∈ F.dirs, (s.findLf F.lf).i_parent d = s.i_parent d) ∧
      (∀ d, d ≠ F.lf.fresh → (s.findLf F.lf).statemap d = s.statemap d) ∧
      (s.findLf F.lf).statemap F.lf.fresh ≠ .dstate ∧
      (∀ d ∈ (s.findLf F.lf).inpsort, d ∈ s.inpsort ∧ (s.findLf F.lf).i_parent d = s.i_parent d ∨
        (s.findLf F.lf).i_parent d = 0) := by
  have hfresh : s.statemap F.lf.fresh ≠ .dstate := fun hc => F.fresh_not_mem (h.dstate _ hc).1
  unfold Dirs.findLf
  split
  next hlf =>
    exact ⟨h.lfdir.resolve_left hlf, hlf, rfl, rfl, fun _ _ => rfl, fun _ _ => rfl, hfresh,
      fun d hd => .inl ⟨hd, rfl⟩⟩
  next =>
    cases hentry : F.lf.entry with
    | some n =>
      obtain ⟨hmem, hroot, -⟩ := F.entry_mem n hentry
      exact ⟨hroot, fun hc => F.zero_not_mem (hc ▸ hmem), rfl, rfl, fun _ _ => rfl, fun _ _ => rfl,
        hfresh, fun d hd => .inl ⟨hd, rfl⟩⟩
    | none =>
      have hne : ∀ d ∈ F.dirs, d ≠ F.lf.fresh := fun d hd hc => F.fresh_not_mem (hc ▸ hd)
      refine ⟨fun hc => hne _ F.root_mem hc.symm, F.fresh_ne_zero, rfl, rfl, fun d hd => ?_,
        fun d hd => ?_, ?_, fun d hd => ?_⟩
      · exact Function.update_of_ne (hne d hd) ..
      · exact Function.update_of_ne hd ..
      · show Function.update s.statemap F.lf.fresh (s.statemap ROOTINO) F.lf.fresh ≠ .dstate
        rw [Function.update_self, h.root]
        decide
      · show _ ∨ Function.update s.i_parent F.lf.fresh 0 d = 0
        by_cases hdf : d = F.lf.fresh
        · right
          rw [hdf]
          exact Function.update_self ..
        · refine .inl ⟨?_, Function.update_of_ne hdf ..⟩
          rcases List.mem_append.1 hd with hmem | hmem
          · exact hmem
          · exact absurd (List.mem_singleton.1 hmem) hdf

/-- **A directory to be found is linked.** -/
theorem relink_spec (h : Mid F s) {c : ℕ} (hc : s.statemap c = .dstate) :
    Mid F (s.relink F.lf c) ∧ (s.relink F.lf c).lostfound = c :: s.lostfound ∧
      (s.relink F.lf c).links = s.links ∧
      (s.relink F.lf c).inpsort = (s.findLf F.lf).inpsort ∧
      (∀ d ∈ F.dirs, d ≠ c → (s.relink F.lf c).i_parent d = s.i_parent d) ∧
      (s.relink F.lf c).i_parent c ≠ ROOTINO ∧
      (∀ d, d ≠ c → d ≠ F.lf.fresh → (s.relink F.lf c).statemap d = s.statemap d) ∧
      (s.relink F.lf c).statemap c = .dfound := by
  obtain ⟨hlf, hlf0, hlinks, hlost, hpar, hstate, hfresh, hmem⟩ := findLf_spec F h
  obtain ⟨hcd, hcroot⟩ := h.dstate c hc
  have hne : ∀ d ∈ F.dirs, d ≠ F.lf.fresh := fun d hd hx => F.fresh_not_mem (hx ▸ hd)
  have hc' : (s.relink F.lf c).statemap c = .dfound := Function.update_self ..
  have hother : ∀ d, d ≠ c → (s.relink F.lf c).statemap d = (s.findLf F.lf).statemap d :=
    fun d hd => Function.update_of_ne hd ..
  have hpc : (s.relink F.lf c).i_parent c = (s.findLf F.lf).lfdir := Function.update_self ..
  have hpo : ∀ d, d ≠ c → (s.relink F.lf c).i_parent d = (s.findLf F.lf).i_parent d :=
    fun d hd => Function.update_of_ne hd ..
  have hnew : ∀ d, (s.relink F.lf c).statemap d = .dstate → s.statemap d = .dstate := by
    intro d hd
    by_cases hdc : d = c
    · rw [hdc, hc'] at hd
      cases hd
    · rw [hother d hdc] at hd
      by_cases hdf : d = F.lf.fresh
      · exact absurd (hdf ▸ hd) hfresh
      · rwa [hstate d hdf] at hd
  refine ⟨⟨⟨?_, ?_, ?_, fun k hk => ?_, fun d hd hroot hp => ?_⟩, fun d hd => h.dstate d (hnew d hd),
    fun d hd hp => ?_, fun hx => h.zero (hnew 0 hx), .inr hlf⟩, ?_, hlinks, rfl, fun d hd hdc => ?_, ?_,
    fun d hdc hdf => ?_, hc'⟩
  · rw [hother _ hcroot.symm, hstate _ (hne _ F.root_mem)]
    exact h.root
  · show (s.findLf F.lf).links.sibling ROOTINO = none
    rw [hlinks]
    exact h.sibling
  · show (s.findLf F.lf).links.parent ROOTINO = none
    rw [hlinks]
    exact h.parent
  · have hk' : s.links.child ROOTINO = some k := by
      rw [← hlinks]
      exact hk
    exact fun hx => h.child k hk' (hnew k hx)
  · intro hx
    by_cases hdc : d = c
    · rw [hdc, hpc] at hp
      exact hlf hp
    · rw [hpo d hdc] at hp
      rcases hmem d hd with ⟨hmem, heq⟩ | hzero
      · exact h.kids d hmem hroot (heq.symm.trans hp) (hnew d hx)
      · exact absurd (hzero.symm.trans hp) (by decide)
  · by_cases hdc : d = c
    · rw [hdc, hpc] at hp
      exact absurd hp hlf0
    · rw [hpo d hdc, hpar d hd] at hp
      rw [hother d hdc, hstate d (hne d hd)]
      exact h.noparent d hd hp
  · show c :: (s.findLf F.lf).lostfound = _
    rw [hlost]
  · rw [hpo d hdc, hpar d hd]
  · rw [hpc]
    exact hlf
  · rw [hother d hdc, hstate d hdf]

theorem Mid.rehang (h : Mid F s) : Mid F s.rehang :=
  ⟨h.toWalked.rehang, h.dstate, h.noparent, h.zero, h.lfdir⟩

/-- One directory that is not passed over. -/
theorem pass3_cons (h : Mid F s) {n : ℕ} (hn : 2 ≤ n) (hd : d ∈ F.dirs) (hs : ¬s.Skips d)
    (ds : List ℕ) :
    let c := s.climb (F.numdirs + 1) d
    s.pass3 F.lf F.numdirs n (d :: ds) =
      ((s.relink F.lf c).rehang.pass3 F.lf F.numdirs n ds).map fun r =>
        ((s.relink F.lf c).rehang :: r.1, r.2) := by
  intro c
  have hc : s.statemap c = .dstate := climb_spec _ (h.not_skips F hd hs)
  obtain ⟨hmid, -⟩ := relink_spec F h hc
  show (if s.Skips d then _ else _) = _
  rw [if_neg hs, propagate_again hmid.toWalked hn]
  rfl

/-! ### All directories -/

/-- **`pass3` comes to its end**, and a directory that it does not link keeps its state. -/
theorem pass3_spec {n : ℕ} (hn : 2 ≤ n) (ds : List ℕ) (hds : ∀ d ∈ ds, d ∈ F.dirs) (h : Mid F s) :
    ∃ r, s.pass3 F.lf F.numdirs n ds = some r ∧ (∀ x ∈ s.lostfound, x ∈ r.2.lostfound) ∧
      ∀ x, s.statemap x = .dstate → x ∉ r.2.lostfound → r.2.statemap x = .dstate := by
  induction ds generalizing s with
  | nil => exact ⟨([], s), rfl, fun _ hx => hx, fun _ hx _ => hx⟩
  | cons d ds ih =>
    have hd := hds d (List.mem_cons_self ..)
    have hds' : ∀ e ∈ ds, e ∈ F.dirs := fun e he => hds e (List.mem_cons_of_mem _ he)
    by_cases hs : s.Skips d
    · obtain ⟨r, hr, hrest⟩ := ih hds' h
      exact ⟨r, (if_pos hs).trans hr, hrest⟩
    · have hc := climb_spec (F.numdirs + 1) (h.not_skips F hd hs)
      obtain ⟨hmid, hlost, -, -, -, -, hstate, -⟩ := relink_spec F h hc
      obtain ⟨r, hr, hin, hkeep⟩ := ih hds' (hmid.rehang F)
      have hpass := pass3_cons F h hn hd hs ds
      dsimp only at hpass
      rw [hr] at hpass
      have hsub : ∀ x ∈ s.climb (F.numdirs + 1) d :: s.lostfound, x ∈ r.2.lostfound := by
        rw [← hlost]
        exact hin
      refine ⟨_, hpass, fun x hx => hsub x (List.mem_cons_of_mem _ hx), fun x hx hnot => ?_⟩
      have hxc : x ≠ s.climb (F.numdirs + 1) d := by
        rintro rfl
        exact hnot (hsub _ (List.mem_cons_self ..))
      have hxf : x ≠ F.lf.fresh := by
        rintro rfl
        exact F.fresh_not_mem (h.dstate _ hx).1
      exact hkeep x ((hstate x hxc hxf).trans hx) hnot

/-- No directory to be found is below another one. -/
def Flat (s : Dirs) : Prop :=
  ∀ d, s.statemap d = .dstate → s.i_parent d = 0 ∨ s.statemap (s.i_parent d) ≠ .dstate

theorem climb_flat (h : Flat s) (n : ℕ) (hd : s.statemap d = .dstate) : s.climb n d = d := by
  cases n with
  | zero => rfl
  | succ n => exact if_pos (h d hd)

/-- **Orphans that are all single directories** are linked one after the other. -/
theorem pass3_flat {n : ℕ} (hn : 2 ≤ n) (ds : List ℕ) (hds : ∀ d ∈ ds, d ∈ F.dirs) (hnd : ds.Nodup)
    (h : Mid F s) (hflat : Flat s) :
    ∃ r, s.pass3 F.lf F.numdirs n ds = some r ∧
      r.2.lostfound = (ds.filter fun d => s.statemap d = .dstate).reverse ++ s.lostfound ∧
      (∀ d ∈ F.dirs, ¬(d ∈ ds ∧ s.statemap d = .dstate) → r.2.i_parent d = s.i_parent d) ∧
      ∀ d, r.2.statemap d = .dstate → s.statemap d = .dstate ∧ d ∉ ds := by
  induction ds generalizing s with
  | nil => exact ⟨([], s), rfl, rfl, fun _ _ _ => rfl, fun d hd => ⟨hd, List.not_mem_nil⟩⟩
  | cons d ds ih =>
    have hd := hds d (List.mem_cons_self ..)
    have hds' : ∀ e ∈ ds, e ∈ F.dirs := fun e he => hds e (List.mem_cons_of_mem _ he)
    obtain ⟨hdds, hnd⟩ := List.nodup_cons.1 hnd
    by_cases hs : s.Skips d
    · have hst := (h.skips_iff F hd).1 hs
      obtain ⟨r, hr, hlost, hpar, hstate⟩ := ih hds' hnd h hflat
      refine ⟨r, (if_pos hs).trans hr, ?_, fun e he hnot => ?_, fun e he => ?_⟩
      · rw [hlost, List.filter_cons_of_neg (by simpa using hst)]
      · exact hpar e he fun hc => hnot ⟨List.mem_cons_of_mem _ hc.1, hc.2⟩
      · obtain ⟨h1, h2⟩ := hstate e he
        refine ⟨h1, fun hc => ?_⟩
        rcases List.mem_cons.1 hc with rfl | hc
        · exact hst h1
        · exact h2 hc
    · have hst := h.not_skips F hd hs
      have hpass := pass3_cons F h hn hd hs ds
      dsimp only at hpass
      rw [climb_flat hflat _ hst] at hpass
      obtain ⟨hmid, hlostc, -, -, hparc, -, hstatec, hfound⟩ := relink_spec F h hst
      generalize s.relink F.lf d = t at *
      -- what is left to be found was so before, and below nothing that is
      have hback : ∀ e, t.statemap e = .dstate → e ≠ d ∧ s.statemap e = .dstate := by
        intro e he
        have hed : e ≠ d := by
          rintro rfl
          rw [hfound] at he
          cases he
        have hef : e ≠ F.lf.fresh := by
          rintro rfl
          exact F.fresh_not_mem (hmid.dstate _ he).1
        exact ⟨hed, (hstatec e hed hef).symm.trans he⟩
      have hforth : ∀ e ∈ F.dirs, e ≠ d → t.statemap e = s.statemap e := fun e he hed =>
        hstatec e hed fun hc => F.fresh_not_mem (hc ▸ he)
      have hflat' : Flat t.rehang := by
        intro e he
        obtain ⟨hed, hes⟩ := hback e he
        show t.i_parent e = 0 ∨ t.statemap (t.i_parent e) ≠ .dstate
        rw [hparc e (h.dstate e hes).1 hed]
        refine (hflat e hes).imp_right fun hp hc => hp (hback _ hc).2
      obtain ⟨r, hr, hlost, hpar, hstate⟩ := ih hds' hnd (hmid.rehang F) hflat'
      rw [hr] at hpass
      refine ⟨_, hpass, ?_, fun e he hnot => ?_, fun e he => ?_⟩
      · have hfilter : (ds.filter fun e => t.statemap e = .dstate) =
            ds.filter fun e => s.statemap e = .dstate :=
          List.filter_congr fun e he => by
            rw [hforth e (hds' e he) fun hc => hdds (hc ▸ he)]
        show r.2.lostfound = _
        rw [hlost]
        show (ds.filter fun e => decide (t.statemap e = .dstate)).reverse ++ t.lostfound = _
        rw [hfilter, hlostc, List.filter_cons_of_pos (by simpa using hst), List.reverse_cons,
          List.append_assoc]
        rfl
      · have hed : e ≠ d := by
          rintro rfl
          exact hnot ⟨List.mem_cons_self .., hst⟩
        refine (hpar e he fun hc => hnot ⟨List.mem_cons_of_mem _ hc.1, ?_⟩).trans (hparc e he hed)
        exact (hforth e he hed).symm.trans hc.2
      · obtain ⟨h1, h2⟩ := hstate e he
        obtain ⟨hed, hes⟩ := hback e h1
        exact ⟨hes, fun hc => (List.mem_cons.1 hc).elim hed h2⟩

/-- Where a directory is left to be found, the first one that is linked is followed by a call of
`propagate`. -/
theorem pass3_first {n : ℕ} (hn : 2 ≤ n) (ds : List ℕ) (hds : ∀ d ∈ ds, d ∈ F.dirs) (h : Mid F s)
    (hd : d ∈ ds) (hst : s.statemap d = .dstate) {r : List Dirs × Dirs}
    (hr : s.pass3 F.lf F.numdirs n ds = some r) :
    ∃ c, s.statemap c = .dstate ∧ (s.relink F.lf c).rehang ∈ r.1 := by
  induction ds with
  | nil => cases hd
  | cons e ds ih =>
    have he := hds e (List.mem_cons_self ..)
    have hds' : ∀ x ∈ ds, x ∈ F.dirs := fun x hx => hds x (List.mem_cons_of_mem _ hx)
    by_cases hs : s.Skips e
    · have hne : d ≠ e := by
        rintro rfl
        exact (h.skips_iff F he).1 hs hst
      exact ih hds' ((List.mem_cons.1 hd).resolve_left hne) ((if_pos hs).symm.trans hr)
    · have hpass := pass3_cons F h hn he hs ds
      dsimp only at hpass
      rw [hpass] at hr
      obtain ⟨r', -, rfl⟩ := Option.map_eq_some_iff.1 hr
      exact ⟨_, climb_spec _ (h.not_skips F he hs), List.mem_cons_self ..⟩

/-- Without a directory to be found `pass3` does nothing. -/
theorem pass3_none (n : ℕ) (ds : List ℕ) (hds : ∀ d ∈ ds, d ∈ F.dirs) (h : Mid F s)
    (hst : ∀ d, s.statemap d ≠ .dstate) : s.pass3 F.lf F.numdirs n ds = some ([], s) := by
  induction ds with
  | nil => rfl
  | cons d ds ih =>
    have hs := (h.skips_iff F (hds d (List.mem_cons_self ..))).2 (hst d)
    exact (if_pos hs).trans (ih fun e he => hds e (List.mem_cons_of_mem _ he))

/-! ### The passes together -/

/-- The directories that are left to be found after the first walk are the orphans. -/
theorem First.orphan_iff (h : First F s) : s.statemap d = .dstate ↔ F.Orphan d := by
  constructor
  · intro hd
    have hnot : ¬(ReachesRoot F.parent d ∧ d ∈ F.dirs) := by
      rintro ⟨hr, hmem⟩
      rw [h.reached d hr hmem] at hd
      cases hd
    rw [h.others d hnot] at hd
    have hmem := F.mem_of_dstate d hd
    exact ⟨hmem, hd, fun hr => hnot ⟨hr, hmem⟩⟩
  · intro hd
    rw [h.others d fun hc => hd.2.2 hc.1]
    exact hd.2.1

/-- The passes, for a bound that suffices. -/
theorem passes_eq :
    ∃ N, ∃ s, First F s ∧ 2 ≤ N ∧ ∀ n, N ≤ n → F.passes n =
      (s.pass3 F.lf F.numdirs n F.dirs.reverse).map fun r => (s :: r.1, r.2) := by
  obtain ⟨N, s, hs, hN⟩ := propagate_first F
  refine ⟨max N 2, s, hs, le_max_right .., fun n hn => ?_⟩
  unfold Forest.passes
  rw [hN n ((le_max_left ..).trans hn), Option.bind_some, hs.inpsort]

theorem mem_reverse_dirs : ∀ d ∈ F.dirs.reverse, d ∈ F.dirs := fun _ => List.mem_reverse.1

/-- **The passes come to their end** on every forest. -/
theorem passes_end : ∃ N, ∀ n, N ≤ n → ∃ r, F.passes n = some r := by
  obtain ⟨N, s, hs, h2, hN⟩ := passes_eq F
  refine ⟨N, fun n hn => ?_⟩
  obtain ⟨r, hr, -⟩ := pass3_spec F (h2.trans hn) _ (mem_reverse_dirs F) (hs.mid F)
  exact ⟨_, by rw [hN n hn, hr]; rfl⟩

/-- The links are right exactly where no orphan is below another one. -/
theorem linked_iff :
    (∃ N, ∀ n, N ≤ n → ∃ r, F.passes n = some r ∧ F.Linked r.2) ↔
      ∀ d, F.Orphan d → ¬F.Orphan (F.parent d) := by
  obtain ⟨N, s, hs, h2, hN⟩ := passes_eq F
  have hmid := hs.mid F
  constructor
  · rintro ⟨M, hM⟩ d hd hp
    obtain ⟨r, hr, hlinked⟩ := hM (max M N) (le_max_left ..)
    have hn : N ≤ max M N := le_max_right ..
    rw [hN _ hn] at hr
    obtain ⟨r', hr', rfl⟩ := Option.map_eq_some_iff.1 hr
    obtain ⟨r'', hr'', -, hkeep⟩ := pass3_spec F (h2.trans hn) _ (mem_reverse_dirs F) hmid
    cases hr'.symm.trans hr''
    -- the lower one is not linked, and so it is left
    have hnot : d ∉ r'.2.lostfound := fun hc => ((hlinked.tops d).1 hc).2 hp
    exact hlinked.done d (hkeep d ((hs.orphan_iff F).2 hd) hnot)
  · intro h
    refine ⟨N, fun n hn => ?_⟩
    have hflat : Flat s := by
      intro d hd
      by_contra hc
      obtain ⟨-, hp⟩ := not_or.1 hc
      rw [hs.i_parent] at hp
      exact h d ((hs.orphan_iff F).1 hd) ((hs.orphan_iff F).1 (not_not.1 hp))
    obtain ⟨r, hr, hlost, hpar, hstate⟩ := pass3_flat F (h2.trans hn) F.dirs.reverse
      (mem_reverse_dirs F) (List.nodup_reverse.2 F.nodup) hmid hflat
    rw [hs.lostfound, List.append_nil] at hlost
    refine ⟨_, by rw [hN n hn, hr]; rfl, ?_, fun d => ?_, fun d hd hnot => ?_, fun d hd => ?_⟩
    · rw [hlost]
      exact List.nodup_reverse.2 ((List.nodup_reverse.2 F.nodup).filter _)
    · rw [hlost, List.mem_reverse, List.mem_filter, List.mem_reverse, decide_eq_true_eq,
        hs.orphan_iff F]
      exact ⟨fun hd => ⟨hd.2, h d hd.2⟩, fun hd => ⟨hd.1.1, hd.1⟩⟩
    · have hd' : ¬(d ∈ F.dirs.reverse ∧ s.statemap d = .dstate) := fun hc =>
        hnot ⟨(hs.orphan_iff F).1 hc.2, h d ((hs.orphan_iff F).1 hc.2)⟩
      rw [hpar d hd hd', hs.i_parent]
    · obtain ⟨h1, h3⟩ := hstate d hd
      exact h3 (List.mem_reverse.2 (hmid.dstate d h1).1)

/-- The links after the first walk form a tree. -/
theorem First.tree (h : First F s) : s.Tree := by
  intro p hp
  rw [h.inpsort] at hp
  have hp0 : p ≠ 0 := fun hc => F.zero_not_mem (hc ▸ hp)
  refine ⟨F.kids p, kidsOf_nodup F.nodup p, ?_, fun d => ?_⟩
  · rw [h.links]
    exact (start_hung F).seg p
  · rw [mem_kids, h.inpsort, h.i_parent]
    exact ⟨fun hd => ⟨hd.1, hd.2.1, hd.2.2.2⟩, fun hd => ⟨hd.1, hd.2.1, hp0, hd.2.2⟩⟩

/-- **After one directory was linked, something is wrong**: the children of the root hang in a circle, or
`lost+found` is new and has no parent. -/
theorem First.relink_wrong (h : First F s) {c : ℕ} (hc : s.statemap c = .dstate) :
    ¬((s.relink F.lf c).rehang.Tree ∧ ∀ d ∈ (s.relink F.lf c).rehang.inpsort,
      (s.relink F.lf c).rehang.statemap d = .dfound ↔
        ReachesRoot (s.relink F.lf c).rehang.i_parent d) := by
  rintro ⟨htree, hfound⟩
  have hmid := h.mid F
  obtain ⟨-, -, hlinks, hinp, hpar, hpc, -, -⟩ := relink_spec F hmid hc
  cases hentry : F.lf.entry with
  | some m =>
    have hfind : s.findLf F.lf = { s with lfdir := m } := by
      unfold Dirs.findLf
      rw [if_neg (not_not.2 h.lfdir), hentry]
    obtain ⟨hm, hmroot, hmpar⟩ := F.entry_mem m hentry
    have hdirs : (s.relink F.lf c).inpsort = F.dirs := by
      rw [hinp, hfind]
      exact h.inpsort
    generalize s.relink F.lf c = u at *
    have hroot : ROOTINO ∈ u.rehang.inpsort := by
      show ROOTINO ∈ u.inpsort
      rw [hdirs]
      exact F.root_mem
    obtain ⟨l, -, hseg, -⟩ := htree ROOTINO hroot
    -- the same children are put in front of themselves
    have hkids : kidsOf u.par F.dirs ROOTINO = F.kids ROOTINO := by
      refine congrArg List.reverse (List.filter_congr fun d hd => decide_eq_decide.2 ?_)
      rw [par_eq_some, par_eq_some]
      refine and_congr_right fun hdroot => and_congr_right fun _ => ?_
      by_cases hdc : d = c
      · subst hdc
        refine iff_of_false hpc fun hp => ?_
        exact hmid.kids d (h.inpsort ▸ hd) hdroot (h.i_parent ▸ hp) hc
      · rw [hpar d hd hdc, h.i_parent]
        rfl
    have hnew : Seg (u.links.hang u.par F.dirs).sibling ((u.links.hang u.par F.dirs).child ROOTINO)
        (kidsOf u.par F.dirs ROOTINO) (u.links.child ROOTINO) := hang_spec F.nodup ROOTINO
    have hold := (start_hung F).seg ROOTINO
    rw [← h.links] at hold
    rw [hkids, hlinks] at hnew
    have hne : F.kids ROOTINO ≠ [] :=
      List.ne_nil_of_mem ((mem_kids F).2 ⟨hm, hmroot, by decide, hmpar⟩)
    have hrehang : u.rehang.links = s.links.hang u.par F.dirs := by
      show u.links.hang u.par u.inpsort = _
      rw [hdirs, hlinks]
    rw [hrehang] at hseg
    cases hlist : F.kids ROOTINO with
    | nil => exact hne hlist
    | cons k ks =>
      rw [hlist] at hnew hold
      have hsame : s.links.child ROOTINO = (s.links.hang u.par F.dirs).child ROOTINO :=
        hold.1.trans hnew.1.symm
      rw [hsame] at hnew
      exact seg_cycle (List.cons_ne_nil k ks) hnew hseg
  | none =>
    have hfind : s.findLf F.lf = { s.allocdir F.lf.fresh with lfdir := F.lf.fresh } := by
      unfold Dirs.findLf
      rw [if_neg (not_not.2 h.lfdir), hentry]
    have hfresh : ∀ d ∈ F.dirs, d ≠ F.lf.fresh := fun d hd hx => F.fresh_not_mem (hx ▸ hd)
    have hcf : F.lf.fresh ≠ c := (hfresh c (hmid.dstate c hc).1).symm
    have hmem : F.lf.fresh ∈ (s.relink F.lf c).rehang.inpsort := by
      show F.lf.fresh ∈ (s.relink F.lf c).inpsort
      rw [hinp, hfind]
      exact List.mem_append_right _ (List.mem_singleton_self _)
    have hstate : (s.relink F.lf c).statemap F.lf.fresh = .dfound := by
      show Function.update (s.findLf F.lf).statemap c .dfound F.lf.fresh = _
      rw [Function.update_of_ne hcf, hfind]
      exact (Function.update_self ..).trans hmid.root
    have hzero : (s.relink F.lf c).i_parent F.lf.fresh = 0 := by
      show Function.update (s.findLf F.lf).i_parent c _ F.lf.fresh = 0
      rw [Function.update_of_ne hcf, hfind]
      exact Function.update_self ..
    rcases ((hfound F.lf.fresh hmem).1 hstate).cases with hroot | hne
    · exact hfresh ROOTINO F.root_mem hroot.symm
    · exact hne hzero

/-- Everything is right exactly where there are no orphans. -/
theorem works_iff :
    (∃ N, ∀ n, N ≤ n → ∃ r, F.passes n = some r ∧ F.Works r) ↔ ∀ d, ¬F.Orphan d := by
  obtain ⟨N, s, hs, h2, hN⟩ := passes_eq F
  have hmid := hs.mid F
  constructor
  · rintro ⟨M, hM⟩ d hd
    obtain ⟨r, hr, hworks⟩ := hM (max M N) (le_max_left ..)
    have hn : N ≤ max M N := le_max_right ..
    rw [hN _ hn] at hr
    obtain ⟨r', hr', rfl⟩ := Option.map_eq_some_iff.1 hr
    obtain ⟨c, hc, hmem⟩ := pass3_first F (h2.trans hn) _ (mem_reverse_dirs F) hmid
      (List.mem_reverse.2 hd.1) ((hs.orphan_iff F).2 hd) hr'
    have hmem' := List.mem_cons_of_mem s hmem
    exact hs.relink_wrong F hc ⟨hworks.tree _ hmem', hworks.found _ hmem'⟩
  · intro h
    refine ⟨N, fun n hn => ?_⟩
    have hnone : ∀ d, s.statemap d ≠ .dstate := fun d hd => h d ((hs.orphan_iff F).1 hd)
    have hr := pass3_none F n F.dirs.reverse (mem_reverse_dirs F) hmid hnone
    refine ⟨([s], s), by rw [hN n hn, hr]; rfl, ⟨?_, fun d => ?_, fun d _ _ => ?_, hnone⟩, ?_, ?_⟩
    · exact hs.lostfound ▸ List.nodup_nil
    · show d ∈ s.lostfound ↔ _
      rw [hs.lostfound]
      exact iff_of_false List.not_mem_nil fun hc => h d hc.1
    · exact congrFun hs.i_parent d
    · intro t ht d hd
      obtain rfl := List.mem_singleton.1 ht
      rw [hs.inpsort] at hd
      rw [hs.i_parent]
      constructor
      · intro hst
        by_contra hr
        rw [hs.others d fun hc => hr hc.1] at hst
        rcases F.state_cases d hd with hx | ⟨hx, -⟩ <;> rw [hx] at hst <;> cases hst
      · exact fun hr => hs.reached d hr hd
    · intro t ht
      obtain rfl := List.mem_singleton.1 ht
      exact hs.tree F

/-- **The forests that are treated right.**  Everything that is asked of `propagate` and `pass3` holds
exactly where there are no orphans at all; what is asked of the links made in `lost+found`, exactly where
no orphan is below another one. -/
theorem pass3_iff :
    ((∃ N, ∀ n, N ≤ n → ∃ r, F.passes n = some r ∧ F.Works r) ↔ ∀ d, ¬F.Orphan d) ∧
      ((∃ N, ∀ n, N ≤ n → ∃ r, F.passes n = some r ∧ F.Linked r.2) ↔
        ∀ d, F.Orphan d → ¬F.Orphan (F.parent d)) :=
  ⟨works_iff F, linked_iff F⟩

/-- The root, `lost+found`, and an orphan with one subdirectory. -/
def nested : Forest where
  dirs := [2, 11, 12, 13]
  parent d := if d = 2 ∨ d = 11 then 2 else if d = 13 then 12 else 0
  dotdot _ := 0
  statemap d := if d = 2 ∨ d = 11 ∨ d = 12 ∨ d = 13 then .dstate else .ustate
  lncntp _ := 2
  lf := ⟨some 11, 14⟩
  numdirs := 4
  nodup := by decide
  root_mem := by decide
  zero_not_mem := by decide
  root_state := rfl
  root_parent := rfl
  parent_mem := by decide
  state_cases := by decide
  mem_of_dstate d h := by
    by_contra hd
    have hd' : ¬(d = 2 ∨ d = 11 ∨ d = 12 ∨ d = 13) := by simpa using hd
    rw [if_neg hd'] at h
    cases h
  rank d := if d = 2 ∨ d = 12 then 0 else 1
  rank_lt := by decide
  entry_mem n h := by
    obtain rfl : 11 = n := Option.some.inj h
    decide
  fresh_not_mem := by decide
  fresh_ne_zero := by decide

/-- The orphan is put into `lost+found`, and its subdirectory is left for `pass4` to clear. -/
theorem nested_lost :
    ((nested.passes 20).map fun r => (r.2.lostfound, r.2.statemap 13)) = some ([12], .dstate) ∧
      ¬∃ N, ∀ n, N ≤ n → ∃ r, nested.passes n = some r ∧ nested.Works r := by
  refine ⟨by decide +kernel, fun h => ?_⟩
  have hno := (works_iff nested).1 h 12
  refine hno ⟨by decide, rfl, fun hr => ?_⟩
  exact hr.cases.elim (by decide) fun hp => hp rfl

end Ext2fs.Fsck
