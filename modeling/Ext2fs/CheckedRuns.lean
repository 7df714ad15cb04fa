import Ext2fs.AllocRefine
import Ext2fs.Fsck.Pass5Again

/-!
# The checker after the driver

The driver keeps bitmaps and counters step by step; `pass5` makes them anew from the blocks and the inodes
that are in use.  A volume that is right stays right for the checker, whatever the driver hands out and takes
back.

* `InodeStep` — what a step does to the inodes of the groups;
* `markedStep` — a step that also notes which blocks and inodes are in use;
* `Tracks` — the volume and the notes agree;
* `Tracks.step`, `Tracks.run` — they go on agreeing;
* **`checked_runs`** — after every run `pass5` finds nothing to put right.
-/

namespace Ext2fs.GroupMap.Allocator

open NumberPool

/-! ### The inodes of the groups -/

section

variable {fs : MExt2fs} {contigsumsize cg : ℕ} {pref : ℤ} {dir read : Bool} {before : ℕ}
  {g g' : Group} {sb sb' : Totals} {number : ℤ} {s t : AllocSys} {op : AllocOp}
  {e : Option (Event Number)}

/-- A directory is counted, where an inode is taken. -/
def addDir (isDir : Bool) (ndirs : ℕ) : ℕ := if isDir then (ndirs + 1) % 2 ^ 16 else ndirs

/-- It is not counted any more, where the inode is given back. -/
def dropDir (isDir : Bool) (ndirs : ℕ) : ℕ := if isDir then (ndirs + (2 ^ 16 - 1)) % 2 ^ 16 else ndirs

/-- `ext2_alloccg` leaves the inodes alone. -/
theorem alloccg_inodes (h : ext2Alloccg fs contigsumsize cg pref before read g sb = .ret number g' sb') :
    g'.ibmap = g.ibmap ∧ g'.ndirs = g.ndirs := by
  unfold ext2Alloccg at h
  split at h
  · cases h
    exact ⟨rfl, rfl⟩
  split at h
  · cases h
    exact ⟨rfl, rfl⟩
  split at h
  · cases h
    exact ⟨rfl, rfl⟩
  split at h
  · cases h
    exact ⟨rfl, rfl⟩
  · cases h
  · cases h

/-- `ext2_nodealloccg` counts the directory, if there is an inode for it. -/
theorem nodealloccg_ndirs (h : ext2Nodealloccg fs cg pref dir before read g sb = .ret number g' sb') :
    number = 0 ∨ g'.ndirs = addDir dir g.ndirs := by
  unfold ext2Nodealloccg at h
  split at h
  · cases h
    exact .inl rfl
  split at h
  · cases h
    exact .inl rfl
  split at h
  · cases h
    exact .inl rfl
  split at h
  · cases h
    exact .inr rfl
  · cases h
  · cases h

/-- What a step does to the inodes of the groups, by its event. -/
inductive InodeStep (fs : MExt2fs) (isDir : Bool) (gd gd' : ℕ → Group) : Option (Event Number) → Prop
  | same {e : Option (Event Number)} (htake : ∀ ino, e ≠ some (.take (.inode ino)))
      (hgive : ∀ ino, e ≠ some (.give (.inode ino)))
      (hgd : ∀ c, (gd' c).ibmap = (gd c).ibmap ∧ (gd' c).ndirs = (gd c).ndirs) : InodeStep fs isDir gd gd' e
  | take {cg i : ℕ} (hcg : cg < fs.gcount) (hi : i < fs.ipg)
      (hmap : (gd' cg).ibmap = (gd cg).ibmap.setbit i)
      (hdirs : (gd' cg).ndirs = addDir isDir (gd cg).ndirs) (hothers : ∀ c, c ≠ cg → gd' c = gd c) :
      InodeStep fs isDir gd gd' (some (.take (.inode (inodeAt fs cg i))))
  | give {cg i : ℕ} (hcg : cg < fs.gcount) (hi : i < fs.ipg)
      (hmap : (gd' cg).ibmap = (gd cg).ibmap.clrbit i)
      (hdirs : (gd' cg).ndirs = dropDir isDir (gd cg).ndirs) (hothers : ∀ c, c ≠ cg → gd' c = gd c) :
      InodeStep fs isDir gd gd' (some (.give (.inode (inodeAt fs cg i))))

/-- What a step that has no inode for its event leaves. -/
theorem InodeStep.of_same {gd gd' : ℕ → Group} (h : gd' = gd) : InodeStep fs dir gd gd' none := by
  subst h
  exact .same (fun _ => by simp) (fun _ => by simp) fun _ => ⟨rfl, rfl⟩

/-- The step is about a directory: one that is searched for, or is given back. -/
def AllocOp.isDir (s : AllocSys) : AllocOp → Bool
  | .tryGroup k _ _ =>
      match (s.flights[k]?).map Flight.kind with
      | some (.inode isDir) => isDir
      | _ => false
  | .vfree _ isDir _ => isDir
  | _ => false

/-- One group is replaced by one with the same inodes. -/
theorem InodeStep.of_update {gd : ℕ → Group} (hg : g'.ibmap = (gd cg).ibmap ∧ g'.ndirs = (gd cg).ndirs)
    (htake : ∀ ino, e ≠ some (.take (.inode ino))) (hgive : ∀ ino, e ≠ some (.give (.inode ino))) :
    InodeStep fs dir gd (Function.update gd cg g') e := by
  refine .same htake hgive fun c => ?_
  by_cases hc : c = cg
  · subst hc
    rw [Function.update_self]
    exact hg
  · rw [Function.update_of_ne hc]
    exact ⟨rfl, rfl⟩

/-- A search for a block finds no inode. -/
theorem taken_block (number : ℤ) (ino : ℕ) :
    Kind.block.taken number ≠ some (.take (.inode ino)) ∧
      Kind.block.taken number ≠ some (.give (.inode ino)) := by
  unfold Kind.taken
  dsimp only
  split <;> simp

theorem isDir_tryGroup {k : ℕ} {f : Flight} (hk : s.flights[k]? = some f) (hkind : f.kind = .inode dir) :
    (AllocOp.tryGroup k before read).isDir s = dir := by
  simp only [AllocOp.isDir, hk, Option.map_some, hkind]

theorem stepTry_inodes (hg : Geometry fs) (h : Consistent fs s) {k : ℕ}
    (hstep : stepTry fs contigsumsize k before read s = some (t, e)) :
    InodeStep fs ((AllocOp.tryGroup k before read).isDir s) s.gd t.gd e := by
  unfold stepTry at hstep
  cases hk : s.flights[k]? with
  | none =>
    rw [hk] at hstep
    cases hstep
    exact .of_same rfl
  | some f =>
    rw [hk] at hstep
    have hf : FlightOk fs f := h.flights f (List.mem_of_getElem? hk)
    cases hgroups : f.groups with
    | nil =>
      simp only [hgroups, Option.some.injEq, Prod.mk.injEq] at hstep
      obtain ⟨rfl, rfl⟩ := hstep
      exact .of_same rfl
    | cons cg rest =>
      have hcg : cg < fs.gcount := hf.groups cg (hgroups ▸ List.mem_cons_self ..)
      simp only [hgroups] at hstep
      unfold Flight.search at hstep
      cases hkind : f.kind with
      | block =>
        simp only [hkind] at hstep
        cases hret : ext2Alloccg fs contigsumsize cg f.pref before read (s.gd cg) s.sb with
        | corrupted => simp only [hret, reduceCtorEq] at hstep
        | outside => simp only [hret, reduceCtorEq] at hstep
        | ret number g sb =>
          simp only [hret] at hstep
          have hinodes := alloccg_inodes hret
          split at hstep
          · cases hstep
            exact .of_update hinodes (fun ino => (taken_block number ino).1) fun ino =>
              (taken_block number ino).2
          · cases hstep
            exact .of_update hinodes (fun _ => by simp) fun _ => by simp
      | inode isDir =>
        simp only [hkind] at hstep
        rcases nodealloccg_spec hg h.counters hcg hf.pref isDir before read with
          ⟨-, hret⟩ | ⟨i, hi, -, ndirs, totalDir, hret⟩
        · simp only [hret, ne_eq, not_true_eq_false, if_false] at hstep
          cases hstep
          exact .of_update ⟨rfl, rfl⟩ (fun _ => by simp) fun _ => by simp
        · have hne : ((inodeAt fs cg i : ℕ) : ℤ) ≠ 0 := by
            unfold inodeAt
            omega
          simp only [hret, if_pos hne, Kind.taken, Int.toNat_natCast] at hstep
          cases hstep
          refine .take hcg hi ?_ ?_ fun c hc => Function.update_of_ne hc _ _
          · exact congrArg Group.ibmap (Function.update_self cg _ s.gd)
          · refine (congrArg Group.ndirs (Function.update_self cg _ s.gd)).trans ?_
            rw [isDir_tryGroup hk hkind]
            exact (nodealloccg_ndirs hret).resolve_left hne

theorem stepBlkfree_inodes {bno : ℕ} (hstep : stepBlkfree fs contigsumsize bno read s = some (t, e)) :
    InodeStep fs dir s.gd t.gd e := by
  obtain ⟨t', hfree, heq⟩ := Option.map_eq_some_iff.1 hstep
  cases heq
  have hgd : ∀ c, (t'.gd c).ibmap = (s.gd c).ibmap ∧ (t'.gd c).ndirs = (s.gd c).ndirs := by
    unfold ext2Blkfree at hfree
    dsimp only at hfree
    split at hfree
    · cases hfree
      exact fun c => ⟨rfl, rfl⟩
    split at hfree
    · cases hfree
      exact fun c => ⟨rfl, rfl⟩
    split at hfree
    · cases hfree
    split at hfree
    · cases hfree
    · cases hfree
      intro c
      dsimp only
      rw [Function.update_apply]
      split
      next hc => exact hc ▸ ⟨rfl, rfl⟩
      next => exact ⟨rfl, rfl⟩
  exact .same (fun ino => by split <;> simp) (fun ino => by split <;> simp) hgd

theorem stepVfree_inodes (hg : Geometry fs) {ino : ℕ} (hpos : 0 < ino) (hle : ino ≤ fs.gcount * fs.ipg)
    (hstep : stepVfree fs ino dir read s = some (t, e)) : InodeStep fs dir s.gd t.gd e := by
  obtain ⟨hcg, hino⟩ := exists_inodeAt hg hpos hle
  have hi : (ino - 1) % fs.ipg < fs.ipg := Nat.mod_lt _ hg.ipg_pos
  unfold stepVfree at hstep
  split at hstep
  · cases hstep
  generalize (ino - 1) / fs.ipg = cg at hcg hino hstep
  generalize (ino - 1) % fs.ipg = i at hi hino hstep
  subst hino
  dsimp only at hstep
  split at hstep
  · cases hstep
    exact .of_same rfl
  split at hstep
  · cases hstep
  · cases hstep
    refine .give hcg hi (congrArg Group.ibmap (Function.update_self cg _ s.gd))
      ((congrArg Group.ndirs (Function.update_self cg _ s.gd)).trans ?_) fun c hc =>
        Function.update_of_ne hc ..
    rfl

/-- **What a step does to the inodes** of the groups. -/
theorem step_inodes (hg : Geometry fs) (h : Consistent fs s) (hok : op.Ok fs)
    (hstep : step fs contigsumsize op s = some (t, e)) : InodeStep fs (op.isDir s) s.gd t.gd e := by
  cases op with
  | alloc suser size bpref ino =>
    cases hstep
    exact .of_same ((startAlloc_ok hg h hok.1 hok.2.1 hok.2.2).quiet rfl).1
  | valloc isDir cg =>
    cases hstep
    exact .of_same ((startValloc_ok h hok).quiet rfl).1
  | tryGroup k before read => exact stepTry_inodes hg h hstep
  | blkfree bno read => exact stepBlkfree_inodes hstep
  | vfree ino isDir read => exact stepVfree_inodes hg hok.1 hok.2 hstep

/-- An inode is given back by `ext2_vfree` only. -/
theorem step_gives_inode {ino : ℕ}
    (hstep : step fs contigsumsize op s = some (t, some (.give (.inode ino)))) :
    ∃ isDir read, op = .vfree ino isDir read := by
  cases op with
  | alloc suser size bpref ino' => cases hstep
  | valloc isDir cg => cases hstep
  | tryGroup k before read =>
    replace hstep : stepTry fs contigsumsize k before read s = _ := hstep
    unfold stepTry at hstep
    split at hstep
    · cases hstep
    split at hstep
    · cases hstep
    split at hstep
    · cases hstep
    · cases hstep
    split at hstep
    · simp only [Option.some.injEq, Prod.mk.injEq] at hstep
      have htaken := hstep.2
      unfold Kind.taken at htaken
      split at htaken
      · split at htaken <;> cases htaken
      · cases htaken
    · cases hstep
  | blkfree bno read =>
    obtain ⟨t', -, heq⟩ := Option.map_eq_some_iff.1 hstep
    have hevent := (Prod.mk.injEq .. ▸ heq).2
    split at hevent <;> cases hevent
  | vfree ino' isDir read =>
    refine ⟨isDir, read, ?_⟩
    replace hstep : stepVfree fs ino' isDir read s = _ := hstep
    unfold stepVfree at hstep
    split at hstep
    · cases hstep
    dsimp only at hstep
    split at hstep
    · cases hstep
    split at hstep
    · cases hstep
    · simp only [Option.some.injEq, Prod.mk.injEq, Event.give.injEq, Number.inode.injEq] at hstep
      rw [hstep.2]

end

/-! ### The directories of a group -/

theorem countP_update {n i : ℕ} (hi : i < n) (p : ℕ → Bool) (b : Bool) :
    (List.range n).countP (Function.update p i b) + (if p i then 1 else 0) =
      (List.range n).countP p + if b then 1 else 0 := by
  induction n with
  | zero => omega
  | succ n ih =>
    rw [List.range_succ, List.countP_append, List.countP_append, List.countP_singleton,
      List.countP_singleton]
    rcases Nat.lt_succ_iff_lt_or_eq.1 hi with hlt | rfl
    · rw [Function.update_of_ne (by omega)]
      have hrest := ih hlt
      omega
    · have hsame : (List.range i).countP (Function.update p i b) = (List.range i).countP p :=
        List.countP_congr fun j hj => by
          rw [Function.update_of_ne (Nat.ne_of_lt (List.mem_range.1 hj))]
      rw [hsame, Function.update_self]
      omega

/-- The directories of a group. -/
def dirsOf (fs : MExt2fs) (statemap : ℕ → Fsck.InoState) (c : ℕ) : ℕ :=
  (List.range fs.ipg).countP fun i => (statemap (inodeAt fs c i)).isDir

section

variable {fs : MExt2fs} {statemap : ℕ → Fsck.InoState} {st : Fsck.InoState} {cg c i : ℕ}

theorem dirsOf_le (fs : MExt2fs) (statemap : ℕ → Fsck.InoState) (c : ℕ) : dirsOf fs statemap c ≤ fs.ipg := by
  have hle := List.countP_le_length (p := fun i => (statemap (inodeAt fs c i)).isDir) (l := List.range fs.ipg)
  rwa [List.length_range] at hle

/-- An inode of the group changes its state. -/
theorem dirsOf_update (statemap : ℕ → Fsck.InoState) (st : Fsck.InoState) (cg : ℕ) (hi : i < fs.ipg) :
    dirsOf fs (Function.update statemap (inodeAt fs cg i) st) cg +
        (if (statemap (inodeAt fs cg i)).isDir then 1 else 0) =
      dirsOf fs statemap cg + if st.isDir then 1 else 0 := by
  have hfun : (fun j => (Function.update statemap (inodeAt fs cg i) st (inodeAt fs cg j)).isDir) =
      Function.update (fun j => (statemap (inodeAt fs cg j)).isDir) i st.isDir := by
    funext j
    by_cases hj : j = i
    · rw [hj, Function.update_self, Function.update_self]
    · have hne : inodeAt fs cg j ≠ inodeAt fs cg i := by
        unfold inodeAt
        omega
      rw [Function.update_of_ne hj, Function.update_of_ne hne]
  unfold dirsOf
  rw [hfun]
  exact countP_update hi _ _

/-- An inode of another group does. -/
theorem dirsOf_update_of_ne (hi : i < fs.ipg) (hc : c ≠ cg) :
    dirsOf fs (Function.update statemap (inodeAt fs cg i) st) c = dirsOf fs statemap c := by
  refine List.countP_congr fun j hj => ?_
  rw [Function.update_of_ne]
  exact fun heq => hc ((inodeAt_inj (List.mem_range.1 hj) hi).1 heq).1

end

/-! ### What is in use -/

/-- The volume, and which blocks and inodes are in use on it. -/
structure Marked where
  sys : AllocSys
  blockmap : ℕ → Bool
  statemap : ℕ → Fsck.InoState

/-- The blocks that are in use after an event. -/
def noteBlocks : Option (Event Number) → (ℕ → Bool) → ℕ → Bool
  | some (.take (.block b)), map => Function.update map b true
  | some (.give (.block b)), map => Function.update map b false
  | _, map => map

/-- The states of the inodes after an event. -/
def noteInodes (isDir : Bool) : Option (Event Number) → (ℕ → Fsck.InoState) → ℕ → Fsck.InoState
  | some (.take (.inode ino)), map => Function.update map ino (if isDir then .dstate else .fstate)
  | some (.give (.inode ino)), map => Function.update map ino .ustate
  | _, map => map

/-- `ext2_inactive` gives an inode back with the mode it has. -/
def AllocOp.own (statemap : ℕ → Fsck.InoState) : AllocOp → AllocOp
  | .vfree ino _ read => .vfree ino (statemap ino).isDir read
  | op => op

/-- A step, with the notes. -/
def markedStep (fs : MExt2fs) (contigsumsize : ℕ) (op : AllocOp) (m : Marked) :
    Option (Marked × Option (Event Number)) :=
  let op := op.own m.statemap
  (step fs contigsumsize op m.sys).map fun r =>
    (⟨r.1, noteBlocks r.2 m.blockmap, noteInodes (op.isDir m.sys) r.2 m.statemap⟩, r.2)

/-- No reserved inode is given back. -/
def AllocOp.Spares : AllocOp → Prop
  | .vfree ino _ _ => ¬Fsck.Reserved ino
  | _ => True

/-- **The volume agrees with the notes**: what is not in use is free, the bits behind the inodes of a group
are set, and its directories are counted. -/
structure Tracks (fs : MExt2fs) (bits : ℕ) (m : Marked) : Prop where
  consistent : Consistent fs m.sys
  blocks : ∀ b, Number.block b ∈ free fs m.sys.gd ↔ 0 < b ∧ b < fs.bcount ∧ m.blockmap b = false
  inodes : ∀ ino, Number.inode ino ∈ free fs m.sys.gd ↔
    0 < ino ∧ ino ≤ fs.gcount * fs.ipg ∧ ¬Fsck.Reserved ino ∧ m.statemap ino = .ustate
  zero : m.blockmap 0 = true
  padding : ∀ c < fs.gcount, ∀ i < bits, fs.ipg ≤ i → (m.sys.gd c).ibmap.isclr i = false
  ndirs : ∀ c < fs.gcount, (m.sys.gd c).ndirs = dirsOf fs m.statemap c
  reserved : ∀ ino, 0 < ino → ino ≤ fs.gcount * fs.ipg → Fsck.Reserved ino →
    (m.statemap ino).isDir = false

section

variable {fs : MExt2fs} {contigsumsize bits : ℕ} {m m' : Marked} {op : AllocOp}
  {e : Option (Event Number)} {s t : AllocSys}

theorem AllocOp.own_ok (statemap : ℕ → Fsck.InoState) (hok : op.Ok fs) : (op.own statemap).Ok fs := by
  cases op <;> exact hok

/-- A free inode is one of the volume. -/
theorem free_inode {gd : ℕ → Group} {ino : ℕ} (h : Number.inode ino ∈ free fs gd) :
    0 < ino ∧ ino ≤ fs.gcount * fs.ipg := by
  obtain ⟨cg, hcg, i, hi, -, rfl⟩ := h
  have hgroup : cg * fs.ipg + fs.ipg ≤ fs.gcount * fs.ipg := by
    rw [← Nat.succ_mul]
    exact Nat.mul_le_mul_right _ hcg
  unfold inodeAt
  omega

/-- The blocks go on agreeing. -/
theorem Tracks.blocks_step (hg : Geometry fs) (h : Tracks fs bits m) (ht : Consistent fs t)
    (hmoves : NumberPool.Moves (free fs m.sys.gd) (free fs t.gd) e) (b : ℕ) :
    Number.block b ∈ free fs t.gd ↔ 0 < b ∧ b < fs.bcount ∧ noteBlocks e m.blockmap b = false := by
  rcases e with _ | (n | n)
  · rw [show free fs t.gd = free fs m.sys.gd from hmoves]
    exact h.blocks b
  · obtain ⟨hfree, hset⟩ := hmoves
    replace hset : free fs t.gd = free fs m.sys.gd \ {n} := hset
    rw [hset, Set.mem_sdiff, Set.mem_singleton_iff, h.blocks b]
    cases n with
    | block b' =>
      by_cases hb : b = b'
      · simp [hb, noteBlocks]
      · simp [hb, noteBlocks]
    | inode ino => simp [noteBlocks]
  · obtain ⟨hused, hset⟩ := hmoves
    replace hset : free fs t.gd = insert n (free fs m.sys.gd) := hset
    have hn : n ∈ free fs t.gd := hset ▸ Set.mem_insert ..
    rw [hset, Set.mem_insert_iff, h.blocks b]
    cases n with
    | block b' =>
      obtain ⟨hpos, hlt, -⟩ := ht.free_block hg hn
      by_cases hb : b = b'
      · simp [hb, noteBlocks, hpos, hlt]
      · simp [hb, noteBlocks]
    | inode ino => simp [noteBlocks]

/-- The inodes go on agreeing, where no reserved one is given back. -/
theorem Tracks.inodes_step (h : Tracks fs bits m) (isDir : Bool)
    (hmoves : NumberPool.Moves (free fs m.sys.gd) (free fs t.gd) e)
    (hspares : ∀ ino, e = some (.give (.inode ino)) → ¬Fsck.Reserved ino) (ino : ℕ) :
    Number.inode ino ∈ free fs t.gd ↔ 0 < ino ∧ ino ≤ fs.gcount * fs.ipg ∧ ¬Fsck.Reserved ino ∧
      noteInodes isDir e m.statemap ino = .ustate := by
  rcases e with _ | (n | n)
  · rw [show free fs t.gd = free fs m.sys.gd from hmoves]
    exact h.inodes ino
  · obtain ⟨hfree, hset⟩ := hmoves
    replace hset : free fs t.gd = free fs m.sys.gd \ {n} := hset
    rw [hset, Set.mem_sdiff, Set.mem_singleton_iff, h.inodes ino]
    cases n with
    | block b => simp [noteInodes]
    | inode ino' =>
      by_cases hi : ino = ino'
      · cases isDir <;> simp [hi, noteInodes]
      · simp [hi, noteInodes]
  · obtain ⟨hused, hset⟩ := hmoves
    replace hset : free fs t.gd = insert n (free fs m.sys.gd) := hset
    have hn : n ∈ free fs t.gd := hset ▸ Set.mem_insert ..
    rw [hset, Set.mem_insert_iff, h.inodes ino]
    cases n with
    | block b => simp [noteInodes]
    | inode ino' =>
      obtain ⟨hpos, hle⟩ := free_inode hn
      by_cases hi : ino = ino'
      · simp [hi, noteInodes, hpos, hle, hspares ino' rfl]
      · simp [hi, noteInodes]

/-- The bits behind the inodes of a group stay as they are. -/
theorem InodeStep.behind {dir : Bool} {gd gd' : ℕ → Group} (h : InodeStep fs dir gd gd' e) {c i : ℕ}
    (hi : fs.ipg ≤ i) : (gd' c).ibmap.isclr i = (gd c).ibmap.isclr i := by
  cases h with
  | same _ _ hgd => rw [(hgd c).1]
  | @take cg j _ hj hmap _ hothers =>
    by_cases hc : c = cg
    · rw [hc, hmap, Bitmap.isclr_setbit, Function.update_of_ne (by omega)]
    · rw [hothers c hc]
  | @give cg j _ hj hmap _ hothers =>
    by_cases hc : c = cg
    · rw [hc, hmap, Bitmap.isclr_clrbit, Function.update_of_ne (by omega)]
    · rw [hothers c hc]

/-- **The directories go on being counted**: the counter of 16 bits does not wrap around. -/
theorem InodeStep.dirs {dir : Bool} {gd gd' : ℕ → Group} {statemap : ℕ → Fsck.InoState}
    (h : InodeStep fs dir gd gd' e) (hipg : fs.ipg < 2 ^ 16)
    (hdirs : ∀ c < fs.gcount, (gd c).ndirs = dirsOf fs statemap c)
    (htake : ∀ ino, e = some (.take (.inode ino)) → statemap ino = .ustate)
    (hgive : ∀ ino, e = some (.give (.inode ino)) → dir = (statemap ino).isDir) {c : ℕ}
    (hc : c < fs.gcount) : (gd' c).ndirs = dirsOf fs (noteInodes dir e statemap) c := by
  cases h with
  | same hnotake hnogive hgd =>
    have hnote : noteInodes dir e statemap = statemap := by
      rcases e with _ | ⟨_ | ino⟩ | ⟨_ | ino⟩
      · rfl
      · rfl
      · exact absurd rfl (hnotake ino)
      · rfl
      · exact absurd rfl (hnogive ino)
    rw [hnote, (hgd c).2]
    exact hdirs c hc
  | @take cg i hcg hi _ hcount hothers =>
    show _ = dirsOf fs (Function.update statemap (inodeAt fs cg i) _) c
    by_cases heq : c = cg
    · subst heq
      have hone := dirsOf_update statemap (if dir then .dstate else .fstate) c hi
      have hle := dirsOf_le fs (Function.update statemap (inodeAt fs c i) (if dir then .dstate else .fstate)) c
      rw [htake _ rfl] at hone
      rw [hcount, hdirs c hc]
      unfold addDir
      cases dir with
      | false => simpa [Fsck.InoState.isDir] using hone.symm
      | true =>
        simp only [Fsck.InoState.isDir, Bool.false_eq_true, if_false, if_true] at hone hle ⊢
        omega
    · rw [dirsOf_update_of_ne hi heq, hothers c heq]
      exact hdirs c hc
  | @give cg i hcg hi _ hcount hothers =>
    show _ = dirsOf fs (Function.update statemap (inodeAt fs cg i) _) c
    by_cases heq : c = cg
    · subst heq
      have hone := dirsOf_update statemap .ustate c hi
      have hle := dirsOf_le fs statemap c
      rw [← hgive _ rfl] at hone
      rw [hcount, hdirs c hc]
      unfold dropDir
      cases dir with
      | false => simpa [Fsck.InoState.isDir] using hone.symm
      | true =>
        simp only [Fsck.InoState.isDir, Bool.false_eq_true, if_false, if_true] at hone ⊢
        omega
    · rw [dirsOf_update_of_ne hi heq, hothers c heq]
      exact hdirs c hc

/-- A block in use stays in use until it is given back. -/
theorem noteBlocks_of_not_given {map : ℕ → Bool} {b : ℕ} (hb : map b = true)
    (hgive : e ≠ some (.give (.block b))) : noteBlocks e map b = true := by
  rcases e with _ | ⟨b' | _⟩ | ⟨b' | _⟩
  · exact hb
  · by_cases heq : b = b'
    · rw [heq]
      exact Function.update_self ..
    · exact (Function.update_of_ne heq ..).trans hb
  · exact hb
  · have hne : b ≠ b' := fun heq => hgive (heq ▸ rfl)
    exact (Function.update_of_ne hne ..).trans hb
  · exact hb

/-- An inode the event is not about keeps its state. -/
theorem noteInodes_of_ne {dir : Bool} {map : ℕ → Fsck.InoState} {ino : ℕ}
    (htake : e ≠ some (.take (.inode ino))) (hgive : e ≠ some (.give (.inode ino))) :
    noteInodes dir e map ino = map ino := by
  rcases e with _ | ⟨_ | ino'⟩ | ⟨_ | ino'⟩
  · rfl
  · rfl
  · have hne : ino ≠ ino' := fun heq => htake (heq ▸ rfl)
    exact Function.update_of_ne hne ..
  · rfl
  · have hne : ino ≠ ino' := fun heq => hgive (heq ▸ rfl)
    exact Function.update_of_ne hne ..

/-- The step carried out is the step of the volume. -/
theorem markedStep_cases (hstep : markedStep fs contigsumsize op m = some (m', e)) :
    step fs contigsumsize (op.own m.statemap) m.sys = some (m'.sys, e) ∧
      m'.blockmap = noteBlocks e m.blockmap ∧
      m'.statemap = noteInodes ((op.own m.statemap).isDir m.sys) e m.statemap := by
  obtain ⟨⟨t, e'⟩, hsys, heq⟩ := Option.map_eq_some_iff.1 hstep
  cases heq
  exact ⟨hsys, rfl, rfl⟩

/-- **One step** keeps the volume and the notes in agreement. -/
theorem Tracks.step (hg : Geometry fs) (h : Tracks fs bits m) (hok : op.Ok fs) (hspares : op.Spares)
    (hstep : markedStep fs contigsumsize op m = some (m', e)) :
    Tracks fs bits m' ∧ NumberPool.Moves (free fs m.sys.gd) (free fs m'.sys.gd) e := by
  obtain ⟨hsys, hblocks, hstates⟩ := markedStep_cases hstep
  have hown := AllocOp.own_ok m.statemap hok
  obtain ⟨hcons, hmoves, -⟩ := step_ok hg h.consistent hown hsys
  have hinodes := step_inodes hg h.consistent hown hsys
  -- what is given back is not reserved, and the step knows its mode
  have hgive : ∀ ino, e = some (.give (.inode ino)) → ¬Fsck.Reserved ino ∧
      (op.own m.statemap).isDir m.sys = (m.statemap ino).isDir := by
    rintro ino rfl
    obtain ⟨isDir, read, hvfree⟩ := step_gives_inode hsys
    cases op with
    | vfree ino' isDir' read' =>
      cases hvfree
      exact ⟨hspares, rfl⟩
    | _ => cases hvfree
  have htake : ∀ ino, e = some (.take (.inode ino)) → Number.inode ino ∈ free fs m.sys.gd := by
    rintro ino rfl
    exact hmoves.1
  refine ⟨⟨hcons, ?_, ?_, ?_, ?_, ?_, ?_⟩, hmoves⟩
  · rw [hblocks]
    exact h.blocks_step hg hcons hmoves
  · rw [hstates]
    exact h.inodes_step _ hmoves fun ino he => (hgive ino he).1
  · rw [hblocks]
    refine noteBlocks_of_not_given h.zero ?_
    rintro rfl
    have hfree : Number.block 0 ∈ free fs m'.sys.gd := by
      rw [hmoves.2]
      exact Set.mem_insert ..
    exact absurd (hcons.free_block hg hfree).1 (lt_irrefl 0)
  · intro c hc i hi hle
    rw [hinodes.behind hle]
    exact h.padding c hc i hi hle
  · intro c hc
    rw [hstates]
    exact hinodes.dirs hg.ipg_lt h.ndirs (fun ino he => ((h.inodes ino).1 (htake ino he)).2.2.2)
      (fun ino he => (hgive ino he).2) hc
  · intro ino hpos hle hres
    rw [hstates, noteInodes_of_ne]
    · exact h.reserved ino hpos hle hres
    · exact fun he => ((h.inodes ino).1 (htake ino he)).2.2.1 hres
    · exact fun he => (hgive ino he).1 hres

/-- **Every run** keeps them in agreement. -/
theorem Tracks.run (hg : Geometry fs) (h : Tracks fs bits m) {ops : List AllocOp}
    (hok : ∀ op ∈ ops, op.Ok fs ∧ op.Spares) {hist : List (Event Number)}
    (hrun : NumberPool.run (markedStep fs contigsumsize) ops m = some (m', hist)) : Tracks fs bits m' := by
  have hsim : Simulates (markedStep fs contigsumsize) (fun op => op.Ok fs ∧ op.Spares) (Tracks fs bits)
      fun m => free fs m.sys.gd := fun _ _ _ _ h hok hstep => h.step hg hok.1 hok.2 hstep
  exact (hsim.run_legal h hok hrun).1

/-- **A search of a group with a free inode** takes one. -/
theorem markedRun_search (contigsumsize : ℕ) {blockmap : ℕ → Bool} {statemap : ℕ → Fsck.InoState}
    (hg : Geometry fs) (h : Tracks fs bits ⟨s, blockmap, statemap⟩) (hidle : s.flights = []) (isDir : Bool)
    {cg i : ℕ} (hcg : cg < fs.gcount) (hi : i < fs.ipg) (hclr : (s.gd cg).ibmap.isclr i = true) :
    ∃ t ino, Number.inode ino ∈ free fs s.gd ∧
      NumberPool.run (markedStep fs contigsumsize) [.valloc isDir cg, .tryGroup 0 1 true] ⟨s, blockmap, statemap⟩ =
        some (⟨t, blockmap, Function.update statemap ino (if isDir then .dstate else .fstate)⟩,
          [.take (.inode ino)]) := by
  have hcounters : CountersOk fs s.gd s.sb := h.consistent.counters
  have hnifree : (s.gd cg).nifree ≠ 0 := by
    rw [(hcounters.group cg hcg).nifree]
    exact Finset.card_ne_zero_of_mem (Finset.mem_filter.2 ⟨Finset.mem_range.2 hi, hclr⟩)
  have hficount : s.sb.ficount ≠ 0 := by
    have hle : (s.gd cg).nifree ≤ ∑ c ∈ Finset.range fs.gcount, (s.gd c).nifree :=
      Finset.single_le_sum (f := fun c => (s.gd c).nifree) (fun _ _ => Nat.zero_le _) (Finset.mem_range.2 hcg)
    have hsum := hcounters.ficount
    omega
  obtain ⟨f, hf⟩ : ∃ f : Flight, f = ⟨.inode isDir, u32 (cg * fs.ipg + 1 : ℕ), groupsFrom fs cg⟩ := ⟨_, rfl⟩
  have hstart : startValloc fs isDir cg s = { s with flights := [f] } := by
    unfold startValloc
    rw [if_neg hficount, hidle, hf]
  have hpref : 0 ≤ f.pref := by
    rw [hf]
    exact Int.natCast_nonneg _
  rcases nodealloccg_spec hg hcounters hcg hpref isDir 1 true with
    ⟨hnone | hnone | hnone, -⟩ | ⟨j, hj, hjclr, ndirs, totalDir, hret⟩
  · cases hnone
  · cases hnone
  · exact absurd hnone hnifree
  have hne : ((inodeAt fs cg j : ℕ) : ℤ) ≠ 0 := by
    unfold inodeAt
    omega
  have htry : ∃ t, stepTry fs contigsumsize 0 1 true (startValloc fs isDir cg s) =
      some (t, some (.take (.inode (inodeAt fs cg j)))) := by
    rw [hstart]
    unfold stepTry Flight.search
    simp only [List.getElem?_cons_zero, hf, groupsFrom]
    rw [hf] at hret
    simp only [hret, if_pos hne, Kind.taken, Int.toNat_natCast]
    exact ⟨_, rfl⟩
  obtain ⟨t, htry⟩ := htry
  refine ⟨t, inodeAt fs cg j, ⟨cg, hcg, j, hj, hjclr, rfl⟩, ?_⟩
  have hdir : (AllocOp.tryGroup 0 1 true).isDir (startValloc fs isDir cg s) = isDir :=
    isDir_tryGroup (f := f) (by rw [hstart]; rfl) (by rw [hf])
  simp only [NumberPool.run, markedStep, AllocOp.own, step, htry, hdir, Option.map_some, Option.bind_some,
    noteBlocks, noteInodes]
  rfl

end

end Ext2fs.GroupMap.Allocator

namespace Ext2fs.Fsck

open GroupMap Allocator

/-! ### The volume as the checker finds it -/

/-- The bits of a bitmap. -/
def bitsOf {n : ℕ} (map : Bitmap) : Fin n → Bool := fun k => map.isset k

/-- The bits that count, where those behind are set. -/
theorem clear_bitsOf {n m : ℕ} {map : Bitmap} (hm : m ≤ n)
    (hpad : ∀ i < n, m ≤ i → map.isclr i = false) : clear (bitsOf map : Fin n → Bool) = clearBits map m := by
  have hbits : ∀ k : Fin n, (bytesOfBits (bitsOf map : Fin n → Bool)).isclr k = map.isclr k := fun k => by
    rw [isclr_bytesOfBits _ k.2, bitsOf, Bitmap.isset_eq_not, Bool.not_not]
  rw [← clearBits_bytesOfBits _ hm fun k hk => by rw [bitsOf, Bitmap.isset_eq_not, hpad k k.2 hk]; rfl]
  unfold clearBits
  congr 1
  refine Finset.filter_congr fun i hi => ?_
  rw [hbits ⟨i, (Finset.mem_range.1 hi).trans_le hm⟩]

/-- No two bitmaps have one block. -/
structure BitmapsApart (fs : SbImage) (v : GroupTable) : Prop where
  blocks : ∀ c < fs.gcount, ∀ c' < fs.gcount, v.b_bitmap c' = v.b_bitmap c → c' = c
  inodes : ∀ c < fs.gcount, ∀ c' < fs.gcount, v.i_bitmap c' = v.i_bitmap c → c' = c
  both : ∀ c < fs.gcount, ∀ c' < fs.gcount, v.i_bitmap c' ≠ v.b_bitmap c

/-- The bitmaps, the descriptors and the totals are on the device as the driver has them. -/
structure LeftBy (fs : SbImage) (v : GroupTable) (t : AllocSys) (old : Before fs) : Prop where
  b_bitmap : ∀ c < fs.gcount, old.disk (fs.place (v.b_bitmap c)) = bitsOf (t.gd c).bbmap
  i_bitmap : ∀ c < fs.gcount, old.disk (fs.place (v.i_bitmap c)) = bitsOf (t.gd c).ibmap
  gd : ∀ c < fs.gcount, old.gd c = ⟨(t.gd c).nbfree, (t.gd c).nifree, (t.gd c).ndirs⟩
  fbcount : old.fbcount = t.sb.fbcount
  ficount : old.ficount = t.sb.ficount

section

variable {fs : SbImage} {v : GroupTable} {f : Found} {r : Pass5Result fs} {old : Before fs} {m : Marked}
  {statemap : ℕ → InoState} {bits : ℕ}

/-- The condition for the blocks is one for the volume. -/
theorem BitmapsApart.placed {blockmap blockmap' : ℕ → Bool} {statemap' : ℕ → InoState}
    (h : BitmapsApart fs v) (hp : BitmapsPlaced fs v blockmap statemap) (hpos : 0 < fs.gcount) :
    BitmapsPlaced fs v blockmap' statemap' := by
  refine ⟨hp.reaches, fun c hc c' hc' heq => ?_, fun c hc c' hc' heq => ?_, fun c hc c' hc' heq => ?_,
    fun heq => ?_⟩
  · rw [h.blocks c hc c' hc' heq]
  · rw [h.inodes c hc c' hc' heq]
  · exact absurd heq (h.both c hc c' hc')
  · exact absurd heq.symm (h.both 0 hpos 0 hpos)

/-- So is the condition for the counts, where the inodes of a group fill whole bytes. -/
theorem Countable.of_reserved {statemap' : ℕ → InoState} (h : Countable fs statemap)
    (hbytes : NBBY ∣ fs.e2fs_ipg.toNat) (hres : ∀ c < fs.gcount, ∀ i < fs.e2fs_ipg.toNat,
      Reserved (fs.inodeOf c i) → (statemap' (fs.inodeOf c i)).isDir = false) :
    Countable fs statemap' := by
  refine ⟨h.bpg, h.ipg, h.run, h.low, fun c _ i hi hlast => ?_, h.icount, hres⟩
  obtain ⟨n, hn⟩ := hbytes
  unfold NBBY at hn hlast
  omega

/-- A block that is not in use, of a volume whose block 0 is. -/
theorem not_used_iff {map : ℕ → Bool} (hzero : map 0 = true) (b : ℕ) :
    ¬fs.Used map b ↔ 0 < b ∧ b < fs.e2fs_bcount.toNat ∧ map b = false := by
  unfold SbImage.Used
  rw [not_or, Nat.not_le, Bool.not_eq_true]
  constructor
  · rintro ⟨hmap, hlt⟩
    refine ⟨Nat.pos_of_ne_zero fun h0 => ?_, hlt, hmap⟩
    rw [h0, hzero] at hmap
    cases hmap
  · exact fun ⟨_, hlt, hmap⟩ => ⟨hmap, hlt⟩

/-- An inode that is not in use, of a volume that has all its inodes but for reserved ones. -/
theorem not_taken_iff (hc : Countable fs statemap) (map : ℕ → InoState) {c i : ℕ} (hcg : c < fs.gcount)
    (hi : i < fs.e2fs_ipg.toNat) : ¬fs.Taken map (fs.inodeOf c i) ↔
      0 < fs.inodeOf c i ∧ fs.inodeOf c i ≤ fs.gcount * fs.e2fs_ipg.toNat ∧ ¬Reserved (fs.inodeOf c i) ∧
        map (fs.inodeOf c i) = .ustate := by
  have hgroup : c * fs.e2fs_ipg.toNat + fs.e2fs_ipg.toNat ≤ fs.gcount * fs.e2fs_ipg.toNat := by
    rw [← Nat.succ_mul]
    exact Nat.mul_le_mul_right _ hcg
  constructor
  · intro hfree
    obtain ⟨hres, hrest⟩ := not_or.1 hfree
    refine ⟨Nat.succ_pos _, ?_, hres, not_not.1 (not_or.1 hrest).2⟩
    unfold SbImage.inodeOf
    omega
  · rintro ⟨-, -, hres, hstate⟩ (hr | hbehind | hused)
    · exact hres hr
    · exact hres (hc.icount c hcg i hi hbehind)
    · exact hused hstate

/-- The clear bits of a group that is right. -/
theorem GroupRight.isclr {c : ℕ} {bb ib : fs.Bits} {g : GroupCounts} (h : GroupRight fs f c bb ib g) :
    (∀ i < fs.e2fs_bpg.toNat, (bytesOfBits bb).isclr i = true ↔ ¬fs.Used f.blockmap (fs.blockOf c i)) ∧
    ∀ i < fs.e2fs_ipg.toNat, (bytesOfBits ib).isclr i = true ↔ ¬fs.Taken f.statemap (fs.inodeOf c i) := by
  constructor
  · intro i hi
    obtain ⟨hlt, hiff⟩ := h.blocks i hi
    rw [isclr_bytesOfBits bb hlt, ← hiff, Bool.not_eq_true', Bool.not_eq_true]
  · intro i hi
    obtain ⟨hlt, hiff⟩ := h.inodes i hi
    rw [isclr_bytesOfBits ib hlt, ← hiff, Bool.not_eq_true', Bool.not_eq_true]

section

variable (hok : ext2CheckSbCompat fs.toSuperblock false = 0)

theorem mounted_fpg (hfpg : fs.e2fs_bpg = fs.e2fs_fpg) :
    (fs.toSuperblock.mounted false hok).fpg = fs.e2fs_bpg.toNat := congrArg BitVec.toNat hfpg.symm

variable (hc : Countable fs statemap) (hpos : 0 < fs.gcount)
  (hsize : fs.bsize = 1024 ∨ fs.bsize = 2048 ∨ fs.bsize = 4096)
  (hfirst : fs.e2fs_first_dblock.toNat ≤ 1) (hfpg : fs.e2fs_bpg = fs.e2fs_fpg)
  (hipg : 0 < fs.e2fs_ipg.toNat) (hbytes : NBBY ∣ fs.e2fs_ipg.toNat)

include hc hpos hsize hfirst hfpg hipg hbytes

/-- **A repaired volume agrees** with what the passes have found. -/
theorem Repaired.tracks (hr : Repaired fs v f r) (hf : f.statemap = statemap) (hzero : f.blockmap 0 = true)
    (contigsumsize : ℕ) : Tracks (fs.toSuperblock.mounted false hok) (NBBY * fs.bsize)
      ⟨repairedSys fs v r contigsumsize, f.blockmap, f.statemap⟩ := by
  obtain ⟨hgcount, hg⟩ := hc.geometry hok hpos hsize hfirst hfpg hipg hbytes
  obtain ⟨hmore, hcover, hend⟩ := hc.covers hpos hfirst
  have hmfpg := mounted_fpg hok hfpg
  have hcounters := hr.counters hok hc hpos hsize hfirst hfpg hipg hbytes hzero contigsumsize
  refine ⟨⟨hcounters, fun f hf => by cases hf⟩, fun b => ⟨fun hfree => ?_, fun huse => ?_⟩,
    fun ino => ⟨fun hfree => ?_, fun huse => ?_⟩, hzero, fun c hcg i hi hle => ?_, fun c hcg => ?_,
    fun ino hlow hhigh hres => ?_⟩
  · obtain ⟨c, hcg, i, hi, hclr, rfl⟩ := hfree
    rw [hgcount] at hcg
    rw [hmfpg] at hi
    rw [← blockOf_eq hok hcg hi hend hfpg]
    exact (not_used_iff hzero _).1 (((hr.groups c hcg).isclr.1 i hi).1 hclr)
  · obtain ⟨c, hcg, i, hi, rfl, -, -⟩ := exists_blockAt hg huse.1 huse.2.1
    refine ⟨c, hcg, i, hi, ?_, rfl⟩
    rw [hgcount] at hcg
    rw [hmfpg] at hi
    rw [← blockOf_eq hok hcg hi hend hfpg] at huse
    exact ((hr.groups c hcg).isclr.1 i hi).2 ((not_used_iff hzero _).2 huse)
  · obtain ⟨c, hcg, i, hi, hclr, rfl⟩ := hfree
    rw [hgcount] at hcg ⊢
    exact (not_taken_iff hc _ hcg hi).1 (((hr.groups c hcg).isclr.2 i hi).1 hclr)
  · obtain ⟨hcg, hino⟩ := exists_inodeAt hg huse.1 huse.2.1
    have hi := Nat.mod_lt (ino - 1) hg.ipg_pos
    refine ⟨_, hcg, _, hi, ?_, hino⟩
    rw [hgcount] at hcg
    rw [hgcount, hino] at huse
    exact ((hr.groups _ hcg).isclr.2 _ hi).2 ((not_taken_iff hc _ hcg hi).2 huse)
  · rw [hgcount] at hcg
    show (bytesOfBits _).isclr i = false
    rw [isclr_bytesOfBits _ hi, (hr.groups c hcg).inodePadding ⟨i, hi⟩ hle]
    rfl
  · rw [hgcount] at hcg
    exact (hr.groups c hcg).ndirs
  · obtain ⟨hcg, hino⟩ := exists_inodeAt hg hlow hhigh
    rw [hgcount] at hcg
    rw [hino] at hres ⊢
    rw [hf]
    exact hc.dirs _ hcg _ (Nat.mod_lt (ino - 1) hg.ipg_pos) hres

/-- **What agrees with the notes is right** for the checker. -/
theorem tracks_groupRight (ht : Tracks (fs.toSuperblock.mounted false hok) (NBBY * fs.bsize) m)
    (around : ℤ → Bool) {c : ℕ} (hcg : c < fs.gcount) :
    GroupRight fs ⟨m.blockmap, around, m.statemap⟩ c (bitsOf (m.sys.gd c).bbmap)
      (bitsOf (m.sys.gd c).ibmap) ⟨(m.sys.gd c).nbfree, (m.sys.gd c).nifree, (m.sys.gd c).ndirs⟩ := by
  obtain ⟨hgcount, hg⟩ := hc.geometry hok hpos hsize hfirst hfpg hipg hbytes
  obtain ⟨hmore, hcover, hend⟩ := hc.covers hpos hfirst
  have hbpg := hc.bpg
  have hmfs : c < (fs.toSuperblock.mounted false hok).gcount := hgcount ▸ hcg
  have hmfpg := mounted_fpg hok hfpg
  have hgroup := ht.consistent.counters.group c hmfs
  refine ⟨fun i hi => ⟨hbpg ▸ hi, ?_⟩, fun i hi => ⟨hi.trans_le hc.ipg, ?_⟩, fun k hk => ?_, fun k hk => ?_,
    ?_, ?_, ?_⟩
  · have hmem := mem_free_block m.sys.gd hmfs (hmfpg ▸ hi)
    rw [ht.blocks, ← blockOf_eq hok hcg hi hend hfpg] at hmem
    show (m.sys.gd c).bbmap.isset i = true ↔ fs.Used m.blockmap (fs.blockOf c i)
    rw [Bitmap.isset_eq_not, Bool.not_eq_true', ← Bool.not_eq_true, ← hmem]
    exact not_iff_comm.1 (not_used_iff ht.zero _)
  · have hmem := mem_free_inode m.sys.gd hmfs (show i < (fs.toSuperblock.mounted false hok).ipg from hi)
    rw [ht.inodes, hgcount] at hmem
    show (m.sys.gd c).ibmap.isset i = true ↔ fs.Taken m.statemap (fs.inodeOf c i)
    rw [Bitmap.isset_eq_not, Bool.not_eq_true', ← Bool.not_eq_true, ← hmem]
    exact not_iff_comm.1 (not_taken_iff hc _ hcg hi)
  · exact absurd k.2 (by omega)
  · show (m.sys.gd c).ibmap.isset k = true
    rw [Bitmap.isset_eq_not, ht.padding c hmfs k k.2 hk]
    rfl
  · refine hgroup.nbfree.trans (clear_bitsOf (hmfpg.trans hbpg).le fun i hi hle => ?_).symm
    omega
  · exact hgroup.nifree.trans (clear_bitsOf hc.ipg fun i hi hle => ht.padding c hmfs i hi hle).symm
  · exact ht.ndirs c hmfs

/-- **The volume the driver leaves is repaired**, for what its notes say. -/
theorem tracks_repaired (hm : Countable fs m.statemap)
    (ht : Tracks (fs.toSuperblock.mounted false hok) (NBBY * fs.bsize) m) (hold : LeftBy fs v m.sys old)
    (around : ℤ → Bool) : Repaired fs v ⟨m.blockmap, around, m.statemap⟩ old.result := by
  obtain ⟨hgcount, -⟩ := hc.geometry hok hpos hsize hfirst hfpg hipg hbytes
  have hcounters := ht.consistent.counters
  refine hm.repaired (f := ⟨m.blockmap, around, m.statemap⟩) hsize (fun c hcg => ?_) ?_ ?_
  · show GroupRight fs _ c (old.disk _) (old.disk _) (old.gd c)
    rw [hold.b_bitmap c hcg, hold.i_bitmap c hcg, hold.gd c hcg]
    exact tracks_groupRight hok hc hpos hsize hfirst hfpg hipg hbytes ht around hcg
  · have hsum := hcounters.fbcount
    rw [hgcount, ← hold.fbcount] at hsum
    exact hsum.trans (Finset.sum_congr rfl fun c hcm =>
      (congrArg GroupCounts.nbfree (hold.gd c (Finset.mem_range.1 hcm))).symm)
  · have hsum := hcounters.ficount
    rw [hgcount, ← hold.ficount] at hsum
    exact hsum.trans (Finset.sum_congr rfl fun c hcm =>
      (congrArg GroupCounts.nifree (hold.gd c (Finset.mem_range.1 hcm))).symm)

end

/-! ### Every run and the check after it -/

/-- The passes find the same blocks and inodes in use, and the same number of directories in each group. -/
structure SameUse (fs : SbImage) (f f' : Found) : Prop where
  blocks : ∀ c < fs.gcount, ∀ i < fs.e2fs_bpg.toNat,
    fs.Used f'.blockmap (fs.blockOf c i) ↔ fs.Used f.blockmap (fs.blockOf c i)
  inodes : ∀ c < fs.gcount, ∀ i < fs.e2fs_ipg.toNat,
    fs.Taken f'.statemap (fs.inodeOf c i) ↔ fs.Taken f.statemap (fs.inodeOf c i)
  dirs : ∀ c < fs.gcount,
    ((List.range fs.e2fs_ipg.toNat).countP fun i => (f'.statemap (fs.inodeOf c i)).isDir) =
      (List.range fs.e2fs_ipg.toNat).countP fun i => (f.statemap (fs.inodeOf c i)).isDir

/-- **A repaired volume is repaired for other findings** exactly if they are the same. -/
theorem Repaired.iff_sameUse {f' : Found} (hr : Repaired fs v f r) (hc : Countable fs f'.statemap)
    (hsize : fs.bsize = 1024 ∨ fs.bsize = 2048 ∨ fs.bsize = 4096) :
    Repaired fs v f' r ↔ SameUse fs f f' := by
  constructor
  · intro hr'
    refine ⟨fun c hcg i hi => ?_, fun c hcg i hi => ?_, fun c hcg => ?_⟩
    · obtain ⟨_, hiff⟩ := (hr.groups c hcg).blocks i hi
      obtain ⟨_, hiff'⟩ := (hr'.groups c hcg).blocks i hi
      exact hiff'.symm.trans hiff
    · obtain ⟨_, hiff⟩ := (hr.groups c hcg).inodes i hi
      obtain ⟨_, hiff'⟩ := (hr'.groups c hcg).inodes i hi
      exact hiff'.symm.trans hiff
    · rw [← (hr.groups c hcg).ndirs, ← (hr'.groups c hcg).ndirs]
  · intro hsame
    refine hc.repaired hsize (fun c hcg => ?_) hr.fbcount hr.ficount
    have hgroup := hr.groups c hcg
    refine ⟨fun i hi => ?_, fun i hi => ?_, hgroup.blockPadding, hgroup.inodePadding, hgroup.nbfree,
      hgroup.nifree, hgroup.ndirs.trans (hsame.dirs c hcg).symm⟩
    · obtain ⟨hlt, hiff⟩ := hgroup.blocks i hi
      exact ⟨hlt, hiff.trans (hsame.blocks c hcg i hi).symm⟩
    · obtain ⟨hlt, hiff⟩ := hgroup.inodes i hi
      exact ⟨hlt, hiff.trans (hsame.inodes c hcg i hi).symm⟩

end

/-- **The check after the driver.**  From a volume that is right for the checker, whatever the driver hands
out and takes back, `pass5` changes nothing afterwards exactly if the passes before it find in use what has
been handed out and not been taken back. -/
theorem checked_runs (env : Env) (sb : SbImage) (s : St) (h : setup env sb = some s) (v : GroupTable)
    (f : Found) (r : Pass5Result s.sblock) (hrep : Repairable s.sblock v f.blockmap f.statemap)
    (hright : Repaired s.sblock v f r) (hzero : f.blockmap 0 = true) (happart : BitmapsApart s.sblock v)
    (hpos : 0 < s.sblock.gcount) (hfirst : s.sblock.e2fs_first_dblock.toNat ≤ 1)
    (hipg : 0 < s.sblock.e2fs_ipg.toNat) (hbytes : NBBY ∣ s.sblock.e2fs_ipg.toNat)
    (hok : ext2CheckSbCompat s.sblock.toSuperblock false = 0) (contigsumsize : ℕ) (ops : List AllocOp)
    (hops : ∀ op ∈ ops, op.Ok (s.sblock.toSuperblock.mounted false hok) ∧ op.Spares) (m : Marked)
    (hist : List (NumberPool.Event Number))
    (hrun : NumberPool.run (markedStep (s.sblock.toSuperblock.mounted false hok) contigsumsize) ops
      ⟨repairedSys s.sblock v r contigsumsize, f.blockmap, f.statemap⟩ = some (m, hist))
    (old : Before s.sblock) (hold : LeftBy s.sblock v m.sys old) (f' : Found)
    (hdirs : ∀ c < s.sblock.gcount, ∀ i < s.sblock.e2fs_ipg.toNat, Reserved (s.sblock.inodeOf c i) →
      (f'.statemap (s.sblock.inodeOf c i)).isDir = false) :
    pass5 s.sblock v f' old = old.result ↔
      SameUse s.sblock ⟨m.blockmap, f'.around, m.statemap⟩ f' := by
  obtain ⟨hgood, hfpg⟩ := setup_checks h
  have hsize : s.sblock.bsize = 1024 ∨ s.sblock.bsize = 2048 ∨ s.sblock.bsize = 4096 := by
    unfold SbImage.Bad at hgood
    exact DivState.bsize_cases (by omega)
  have hc := hrep.countable
  obtain ⟨hgcount, hg⟩ := hc.geometry hok hpos hsize hfirst hfpg hipg hbytes
  have htracks := (hright.tracks hok hc hpos hsize hfirst hfpg hipg hbytes rfl hzero contigsumsize).run hg
    hops hrun
  have hm : Countable s.sblock m.statemap := hc.of_reserved hbytes fun c hcg i hi hres => by
    have hgroup : c * s.sblock.e2fs_ipg.toNat + s.sblock.e2fs_ipg.toNat ≤
        s.sblock.gcount * s.sblock.e2fs_ipg.toNat := by
      rw [← Nat.succ_mul]
      exact Nat.mul_le_mul_right _ hcg
    refine htracks.reserved _ (Nat.succ_pos _) ?_ hres
    rw [hgcount]
    show _ ≤ s.sblock.gcount * s.sblock.e2fs_ipg.toNat
    unfold SbImage.inodeOf
    omega
  have hf' : Countable s.sblock f'.statemap := hc.of_reserved hbytes hdirs
  have hleft := tracks_repaired hok hc hpos hsize hfirst hfpg hipg hbytes hm htracks hold f'.around
  have hrep' : Repairable s.sblock v f'.blockmap f'.statemap := ⟨hf', happart.placed hrep.placed hpos⟩
  rw [← hleft.iff_sameUse hf' hsize]
  constructor
  · intro hsame
    have hright' := hrep'.right hsize f'.around old
    rwa [hsame] at hright'
  · exact fun hold' => hrep'.unchanged hsize rfl rfl hold'

/-- On the volume of one group where an inode was cleared, a search for the inode of a directory takes one,
and a check that finds the new directory changes nothing. -/
theorem checked_runs_sharing : ∃ hok t ino old,
    NumberPool.run (markedStep (oneGroup.toSuperblock.mounted false hok) 4)
        [.valloc true 0, .tryGroup 0 1 true]
        ⟨repairedSys oneGroup bitmapTable (pass5 oneGroup bitmapTable sharingFound
          ⟨fun _ _ => false, fun _ => false, fun _ => ⟨0, 0, 0⟩, 0, 0⟩) 4,
          sharingFound.blockmap, sharingFound.statemap⟩ =
        some (⟨t, sharingFound.blockmap, Function.update sharingFound.statemap ino .dstate⟩,
          [.take (.inode ino)]) ∧
      LeftBy oneGroup bitmapTable t old ∧
      pass5 oneGroup bitmapTable ⟨sharingFound.blockmap, sharingFound.around,
        Function.update sharingFound.statemap ino .dstate⟩ old = old.result := by
  have hset : (setup preenOneGroup oneGroup).map St.sblock = some oneGroup := by decide +kernel
  obtain ⟨s, hs, hsb⟩ := Option.map_eq_some_iff.1 hset
  have hruns := checked_runs preenOneGroup oneGroup s hs bitmapTable sharingFound
  rw [hsb] at hruns
  have hsize : oneGroup.bsize = 1024 ∨ oneGroup.bsize = 2048 ∨ oneGroup.bsize = 4096 :=
    .inl (by decide +kernel)
  have hok : ext2CheckSbCompat oneGroup.toSuperblock false = 0 := by decide +kernel
  have hpos : 0 < oneGroup.gcount := by decide +kernel
  have hone : ∀ c < oneGroup.gcount, c = 0 := fun c hc => by
    have hg : oneGroup.gcount = 1 := by decide +kernel
    omega
  have hfirst : oneGroup.e2fs_first_dblock.toNat ≤ 1 := le_refl 1
  have hbytes : NBBY ∣ oneGroup.e2fs_ipg.toNat := by decide
  have hipg : 0 < oneGroup.e2fs_ipg.toNat := by decide
  have hfpg : oneGroup.e2fs_bpg = oneGroup.e2fs_fpg := rfl
  have hzero : sharingFound.blockmap 0 = true := by decide +kernel
  have happart : BitmapsApart oneGroup bitmapTable :=
    ⟨fun c hc c' hc' _ => (hone c' hc').trans (hone c hc).symm,
      fun c hc c' hc' _ => (hone c' hc').trans (hone c hc).symm, fun _ _ _ _ heq => by cases heq⟩
  let old : Before oneGroup := ⟨fun _ _ => false, fun _ => false, fun _ => ⟨0, 0, 0⟩, 0, 0⟩
  have hright : Repaired oneGroup bitmapTable sharingFound (pass5 oneGroup bitmapTable sharingFound old) :=
    oneGroup_repairable.right hsize sharingFound.around old
  have hc := oneGroup_repairable.countable
  obtain ⟨hgcount, hg⟩ := hc.geometry hok hpos hsize hfirst hfpg hipg hbytes
  have htracks := hright.tracks hok hc hpos hsize hfirst hfpg hipg hbytes rfl hzero 4
  -- the inode 12 is free, so there is one to take
  have hroom : 12 ≤ (oneGroup.toSuperblock.mounted false hok).gcount *
      (oneGroup.toSuperblock.mounted false hok).ipg := by
    rw [hgcount]
    show 12 ≤ oneGroup.gcount * oneGroup.e2fs_ipg.toNat
    decide +kernel
  have hfree : Number.inode 12 ∈ free (oneGroup.toSuperblock.mounted false hok)
      (repairedSys oneGroup bitmapTable (pass5 oneGroup bitmapTable sharingFound old) 4).gd :=
    (htracks.inodes 12).2 ⟨by decide, hroom, by unfold Reserved; decide, by decide +kernel⟩
  obtain ⟨cg, hcg, i, hi, hclr, -⟩ := hfree
  obtain rfl := hone cg (hgcount ▸ hcg)
  obtain ⟨t, ino, hino, hrun⟩ := markedRun_search 4 hg htracks rfl true hcg hi hclr
  obtain ⟨hlow, hhigh, hnres, -⟩ := (htracks.inodes ino).1 hino
  let left : Before oneGroup :=
    ⟨fun a => if a = oneGroup.place 3 then bitsOf (t.gd 0).bbmap else bitsOf (t.gd 0).ibmap,
      fun _ => false, fun _ => ⟨(t.gd 0).nbfree, (t.gd 0).nifree, (t.gd 0).ndirs⟩,
      t.sb.fbcount, t.sb.ficount⟩
  have hleft : LeftBy oneGroup bitmapTable t left := by
    refine ⟨fun c hc => ?_, fun c hc => ?_, fun c hc => ?_, rfl, rfl⟩
    · rw [hone c hc]
      show (if oneGroup.place 3 = oneGroup.place 3 then (bitsOf (t.gd 0).bbmap : oneGroup.Bits)
        else bitsOf (t.gd 0).ibmap) = _
      rw [if_pos rfl]
    · rw [hone c hc]
      show (if oneGroup.place 4 = oneGroup.place 3 then (bitsOf (t.gd 0).bbmap : oneGroup.Bits)
        else bitsOf (t.gd 0).ibmap) = _
      rw [if_neg (by decide +kernel)]
    · rw [hone c hc]
  -- the new directory is not a reserved inode
  have hdirs : ∀ c < oneGroup.gcount, ∀ i < oneGroup.e2fs_ipg.toNat, Reserved (oneGroup.inodeOf c i) →
      (Function.update sharingFound.statemap ino InoState.dstate (oneGroup.inodeOf c i)).isDir = false := by
    intro c hc i hi hres
    have hne : oneGroup.inodeOf c i ≠ ino := fun heq => hnres (heq ▸ hres)
    rw [Function.update_of_ne hne]
    exact oneGroup_repairable.countable.dirs c hc i hi hres
  have hops : ∀ op ∈ [AllocOp.valloc true 0, .tryGroup 0 1 true],
      op.Ok (oneGroup.toSuperblock.mounted false hok) ∧ op.Spares := by
    intro op hop
    rcases List.mem_cons.1 hop with rfl | hop
    · exact ⟨hcg, trivial⟩
    · rw [List.mem_singleton.1 hop]
      exact ⟨trivial, trivial⟩
  refine ⟨hok, t, ino, left, hrun, hleft, ?_⟩
  exact (hruns _ oneGroup_repairable hright hzero happart hpos hfirst hipg hbytes hok 4 _ hops _ _ hrun left hleft
    ⟨sharingFound.blockmap, sharingFound.around, Function.update sharingFound.statemap ino .dstate⟩ hdirs).2
    ⟨fun _ _ _ _ => Iff.rfl, fun _ _ _ _ => Iff.rfl, fun _ _ => rfl⟩

end Ext2fs.Fsck
