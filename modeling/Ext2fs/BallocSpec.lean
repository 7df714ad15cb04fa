import Ext2fs.Balloc

/-!
# What `ext2_balloc` does to the block map

The loop over the indirect blocks works on one pointer tree of the inode.  `BallocTree` says what a
call may do to such a tree; it holds of a new block (`BallocTree.leaf`), of a new indirect block
(`BallocTree.of_new`) and of a node whose child it holds of (`BallocTree.node`), so it holds of the
loop (`ballocWalk_spec`) and, through the slots of the inode, of the call (`ext2Balloc_spec`).

* `ext2Balloc_spec` — what the whole call does to the inode;
* `ext2Balloc_sound` — the call keeps a consistent volume consistent;
* `ext2Balloc_correct_iff` — a call that fails leaves the block map alone, and a call that succeeds
  maps its block unless the synchronous write of an indirect block failed unnoticed.
-/

namespace Ext2fs

open PtrTree

/-! ### One tree -/

/-- The synchronous writes that a new pointer on the way to offset `off` needs all succeed: one for
each missing block below the root, made in the block above it. -/
def PublishOk (N : ℕ) (st : Store) (publish : ℕ → Bool) : ℕ → ℕ → ℕ → ℕ → Prop
  | 0, _, _, _ => True
  | k + 1, p, off, j =>
      let q := if p = 0 then 0 else st p (off / N ^ k)
      (q = 0 → publish j = true) ∧ PublishOk N st publish k q (off % N ^ k) (j + 1)

theorem publishOk_null {N : ℕ} {st st' : Store} {publish : ℕ → Bool} {k off j : ℕ} :
    PublishOk N st publish k 0 off j ↔ PublishOk N st' publish k 0 off j := by
  induction k generalizing off j with
  | zero => rfl
  | succ k ih =>
    simp only [PublishOk, eq_self, if_true]
    exact and_congr_right fun _ => ih

theorem publishOk_blank {N : ℕ} {st : Store} (st' : Store) {publish : ℕ → Bool} {k p off j : ℕ}
    (hz : ∀ i, st p i = 0) :
    PublishOk N st publish k p off j ↔ PublishOk N st' publish k 0 off j := by
  cases k with
  | zero => rfl
  | succ k =>
    simp only [PublishOk, hz, ite_self, eq_self, if_true]
    exact and_congr_right fun _ => publishOk_null

/-- What a call of `ext2_balloc` from `w` that ends in `r` did to the tree of height `k` that was
rooted at `p` and is rooted at `p'`, where `off` is the offset of the block it was called for. -/
structure BallocTree (fs : MExt2fs) (env : BallocEnv) (sync : Bool) (w : World)
    (r : Option Errno × World) (k p p' off j : ℕ) : Prop where
  grows : Grows fs.nindir (w.store fs) (r.2.store fs) k p p' off w.Fresh
  used : ∀ b, Mem fs.nindir (r.2.store fs) k p' b → r.2.avail b = false
  failed : r.1 ≠ none → lookup fs.nindir (r.2.store fs) k p' off
    = lookup fs.nindir (w.store fs) k p off
  found : lookup fs.nindir (w.store fs) k p off ≠ 0 →
    lookup fs.nindir (r.2.store fs) k p' off = lookup fs.nindir (w.store fs) k p off
  linked : r.1 = none → lookup fs.nindir (w.store fs) k p off = 0 →
    (sync = true → PublishOk fs.nindir (w.store fs) env.publish k p off j) →
    lookup fs.nindir (r.2.store fs) k p' off ≠ 0 ∧
      w.avail (lookup fs.nindir (r.2.store fs) k p' off) = true
  unlinked : r.1 = none → lookup fs.nindir (w.store fs) k p off = 0 →
    ¬ (sync = true → PublishOk fs.nindir (w.store fs) env.publish k p off j) →
    lookup fs.nindir (r.2.store fs) k p' off = 0
  freed : ∃ evs, r.2.freed = w.freed ++ evs ∧ ∀ e ∈ evs, r.1 ≠ none ∧
    ∃ b : ℕ, e.bno = b ∧ w.avail b = true ∧ ¬ Mem fs.nindir (r.2.store fs) k p' b

section

variable {fs : MExt2fs} {env : BallocEnv} {sync : Bool} {w w₁ : World} {r : Option Errno × World}
variable {k p off j newb : ℕ}

/-- A call that leaves the blocks in use alone. -/
theorem BallocTree.of_congr (hs : Sep fs.nindir (w.store fs) k p) (hoff : off < fs.nindir ^ k)
    (hu : ∀ b, Mem fs.nindir (w.store fs) k p b → w.avail b = false) (hq : Quiet w r.2)
    (hst : ∀ b, w.avail b = false → r.2.store fs b = w.store fs b)
    (hres : r.1 = none → lookup fs.nindir (w.store fs) k p off = 0 →
      ¬ (sync = true → PublishOk fs.nindir (w.store fs) env.publish k p off j))
    (hfreed : ∃ evs, r.2.freed = w.freed ++ evs ∧ ∀ e ∈ evs, r.1 ≠ none ∧
      ∃ b : ℕ, e.bno = b ∧ w.avail b = true) :
    BallocTree fs env sync w r k p p off j := by
  have hcongr : ∀ b, Mem fs.nindir (w.store fs) k p b → r.2.store fs b = w.store fs b :=
    fun b hb => hst b (hu b hb)
  have hlookup : lookup fs.nindir (r.2.store fs) k p off = lookup fs.nindir (w.store fs) k p off :=
    lookup_congr fs.nindir_pos hoff hcongr
  have hmem : ∀ b, Mem fs.nindir (r.2.store fs) k p b ↔ Mem fs.nindir (w.store fs) k p b :=
    fun b => mem_congr hcongr
  refine ⟨Grows.of_congr fs.nindir_pos hs hcongr, fun b hb => ?_, fun _ => hlookup,
    fun _ => hlookup, fun hnone hzero hpub => ?_, fun _ hzero _ => hlookup.trans hzero, ?_⟩
  · exact hq.avail_false (hu b ((hmem b).1 hb))
  · exact absurd hpub (hres hnone hzero)
  · obtain ⟨evs, hevs, hfresh⟩ := hfreed
    refine ⟨evs, hevs, fun e he => ?_⟩
    obtain ⟨hfail, b, hb, hav⟩ := hfresh e he
    refine ⟨hfail, b, hb, hav, fun hm => ?_⟩
    have hfalse := hu b ((hmem b).1 hm)
    rw [hav] at hfalse
    exact absurd hfalse (by decide)

/-- A new block at the end of the path. -/
theorem BallocTree.leaf {w' : World} (htook : World.Took fs w w₁ newb) (hav : w'.avail = w₁.avail)
    (hfreed : w'.freed = w₁.freed) :
    BallocTree fs env sync w (none, w') 0 0 newb 0 j where
  grows := by
    refine ⟨fun o ho hne => ?_, fun b hb => absurd hb not_mem_null, fun b hb => .inr ?_,
      fun b hb _ => ⟨hb.1, Nat.one_pos, hb.2⟩, trivial⟩
    · rw [pow_zero, Nat.lt_one_iff] at ho
      exact absurd ho hne
    · rw [hb.2]
      exact htook.fresh
  used b hb := by
    rw [hb.2, hav]
    exact htook.avail_self
  failed h := absurd rfl h
  found h := absurd rfl h
  linked _ _ _ := ⟨htook.pos, htook.free⟩
  unlinked _ _ h := absurd (fun _ => trivial) h
  freed := ⟨[], by rw [hfreed, htook.freed, List.append_nil], by simp⟩

/-- A new indirect block: what happens below the cleared block happens to the missing tree. -/
theorem BallocTree.of_new {w₂ : World} (htook : World.Took fs w w₁ newb)
    (hblank : ∀ i, w₂.store fs newb i = 0) (hav : w₂.avail = w₁.avail)
    (hfreed : w₂.freed = w₁.freed) (c : BallocTree fs env sync w₂ r (k + 1) newb newb off j) :
    BallocTree fs env sync w r (k + 1) 0 newb off j := by
  have hfree : ∀ b, w₂.avail b = true → w.avail b = true := by
    intro b hb
    rw [hav] at hb
    exact htook.quiet.avail b hb
  have hzero : lookup fs.nindir (w₂.store fs) (k + 1) newb off = 0 := lookup_blank hblank
  have hpub : PublishOk fs.nindir (w₂.store fs) env.publish (k + 1) newb off j ↔
      PublishOk fs.nindir (w.store fs) env.publish (k + 1) 0 off j :=
    publishOk_blank (w.store fs) hblank
  refine ⟨?_, c.used, fun h => ?_, fun h => absurd lookup_null h, fun hnone _ hok => ?_,
    fun hnone _ hbad => ?_, ?_⟩
  · refine (c.grows.of_blank htook.pos hblank).mono fun b hb => ?_
    rcases hb with rfl | hb
    · exact htook.fresh
    · exact ⟨hfree b hb.1, hb.2⟩
  · rw [c.failed h, hzero, lookup_null]
  · obtain ⟨hne, hnew⟩ := c.linked hnone hzero fun hsync => hpub.2 (hok hsync)
    exact ⟨hne, hfree _ hnew⟩
  · exact c.unlinked hnone hzero fun h => hbad fun hsync => hpub.1 (h hsync)
  · obtain ⟨evs, hevs, hfresh⟩ := c.freed
    refine ⟨evs, by rw [hevs, hfreed, htook.freed], fun e he => ?_⟩
    obtain ⟨hfail, b, hb, hnew, hm⟩ := hfresh e he
    exact ⟨hfail, b, hb, hfree b hnew, hm⟩

/-- A node: only the slot of the child on the path changed, and below it the call did what it does
to a tree. -/
theorem BallocTree.node (hp : p ≠ 0) (hs : Sep fs.nindir (w.store fs) (k + 1) p)
    (hoff : off < fs.nindir ^ (k + 1))
    (hu : ∀ b, Mem fs.nindir (w.store fs) (k + 1) p b → w.avail b = false) (hq : Quiet w r.2)
    (hslots : ∀ i, i ≠ off / fs.nindir ^ k → r.2.store fs p i = w.store fs p i)
    (hframe : ∀ b, b ≠ p → w.avail b = false →
      ¬ Mem fs.nindir (w.store fs) k (w.store fs p (off / fs.nindir ^ k)) b →
      r.2.store fs b = w.store fs b)
    (hpub : w.store fs p (off / fs.nindir ^ k) = 0 → sync = true → env.publish j = true)
    (c : BallocTree fs env sync w r k (w.store fs p (off / fs.nindir ^ k))
      (r.2.store fs p (off / fs.nindir ^ k)) (off % fs.nindir ^ k) (j + 1)) :
    BallocTree fs env sync w r (k + 1) p p off j := by
  have hN := fs.nindir_pos
  have hd : off / fs.nindir ^ k < fs.nindir := div_lt_of_lt_pow hN hoff
  have ho : off % fs.nindir ^ k < fs.nindir ^ k := Nat.mod_lt _ (pow_pos hN k)
  have e : EditsChild fs.nindir (w.store fs) (r.2.store fs) k p (off / fs.nindir ^ k) := by
    refine ⟨hslots, fun i hi hid b hb => hframe b ?_ (hu b (mem_of_child hp hi hb)) ?_⟩
    · rintro rfl
      exact hs.root_not_mem hp hi hb
    · exact hs.disjoint hp hi hd hid hb
  have hnew : ∀ b, w.avail b = true → ¬ Mem fs.nindir (w.store fs) (k + 1) p b := by
    intro b hav hb
    rw [hu b hb] at hav
    exact absurd hav (by decide)
  have hbefore : lookup fs.nindir (w.store fs) (k + 1) p off = lookup fs.nindir (w.store fs) k
      (w.store fs p (off / fs.nindir ^ k)) (off % fs.nindir ^ k) := by
    rw [lookup, if_neg hp]
  have hafter : lookup fs.nindir (r.2.store fs) (k + 1) p off = lookup fs.nindir (r.2.store fs) k
      (r.2.store fs p (off / fs.nindir ^ k)) (off % fs.nindir ^ k) := by
    rw [lookup, if_neg hp]
  have hpubs : (sync = true → PublishOk fs.nindir (w.store fs) env.publish (k + 1) p off j) ↔
      (sync = true → PublishOk fs.nindir (w.store fs) env.publish k
        (w.store fs p (off / fs.nindir ^ k)) (off % fs.nindir ^ k) (j + 1)) := by
    refine imp_congr_right fun hsync => ?_
    simp only [PublishOk, if_neg hp]
    exact ⟨fun h => h.2, fun h => ⟨fun hz => hpub hz hsync, h⟩⟩
  refine ⟨?_, fun b hb => ?_, ?_, ?_, ?_, ?_, ?_⟩
  · have g := Grows.node e hN hp hd ho hs (fun b hb => hnew b hb.1) c.grows
    rwa [Nat.div_add_mod'] at g
  · rw [e.mem_child hp hd] at hb
    rcases hb with rfl | hb | ⟨i, hi, _, hb⟩
    · exact hq.avail_false (hu b (mem_root hp))
    · exact c.used b hb
    · exact hq.avail_false (hu b (mem_of_child hp hi hb))
  · rw [hbefore, hafter]
    exact c.failed
  · rw [hbefore, hafter]
    exact c.found
  · rw [hbefore, hafter, hpubs]
    exact c.linked
  · rw [hbefore, hafter, hpubs]
    exact c.unlinked
  · obtain ⟨evs, hevs, hfresh⟩ := c.freed
    refine ⟨evs, hevs, fun ev he => ?_⟩
    obtain ⟨hfail, b, hb, hav, hm⟩ := hfresh ev he
    refine ⟨hfail, b, hb, hav, fun hmem => ?_⟩
    rw [e.mem_child hp hd] at hmem
    rcases hmem with rfl | hmem | ⟨i, hi, _, hmem⟩
    · exact hnew b hav (mem_root hp)
    · exact hm hmem
    · exact hnew b hav (mem_of_child hp hi hmem)

/-- A node whose missing child was made and written into it. -/
theorem BallocTree.node_new {d : ℕ} (hp : p ≠ 0) (hs : Sep fs.nindir (w.store fs) (k + 1) p)
    (hoff : off < fs.nindir ^ (k + 1))
    (hu : ∀ b, Mem fs.nindir (w.store fs) (k + 1) p b → w.avail b = false) (hq : Quiet w r.2)
    (hd : d = off / fs.nindir ^ k) (hnb : w.store fs p d = 0)
    (hself : r.2.store fs p = putPtr (w.store fs p) d newb)
    (hframe : ∀ b, b ≠ p → w.avail b = false → r.2.store fs b = w.store fs b)
    (hpub : sync = true → env.publish j = true)
    (c : BallocTree fs env sync w r k 0 newb (off % fs.nindir ^ k) (j + 1)) :
    BallocTree fs env sync w r (k + 1) p p off j := by
  refine .node hp hs hoff hu hq (fun i hi => ?_) (fun b hb hbu _ => hframe b hb hbu)
    (fun _ => hpub) ?_
  · rw [hself, putPtr, hd, if_neg hi]
  · rw [hself, putPtr, hd, if_pos rfl, ← hd, hnb]
    exact c

/-- A node whose missing child was made, but never written into it. -/
theorem BallocTree.node_lost {d : ℕ} (hp : p ≠ 0) (hs : Sep fs.nindir (w.store fs) (k + 1) p)
    (hoff : off < fs.nindir ^ (k + 1))
    (hu : ∀ b, Mem fs.nindir (w.store fs) (k + 1) p b → w.avail b = false) (hq : Quiet w r.2)
    (hd : d = off / fs.nindir ^ k) (hnb : w.store fs p d = 0)
    (hst : ∀ b, w.avail b = false → r.2.store fs b = w.store fs b)
    (hpub : ¬ (sync = true → env.publish j = true))
    (c : BallocTree fs env sync w r k 0 newb (off % fs.nindir ^ k) (j + 1)) :
    BallocTree fs env sync w r (k + 1) p p off j := by
  obtain ⟨evs, hevs, hfresh⟩ := c.freed
  refine .of_congr hs hoff hu hq hst (fun _ _ hok => ?_) ⟨evs, hevs, fun e he => ?_⟩
  · refine hpub fun hsync => (hok hsync).1 ?_
    rw [if_neg hp, ← hd, hnb]
  · obtain ⟨hfail, b, hb, hbu, _⟩ := hfresh e he
    exact ⟨hfail, b, hb, hbu⟩

/-! ### The loop over the indirect blocks -/

@[simp] theorem World.publishBlk_store_ne {ok : Bool} {b x : ℕ} {bap : ℕ → ℕ} (h : x ≠ b) :
    (w.publishBlk fs sync ok b bap).store fs x = w.store fs x := by
  unfold World.publishBlk
  split
  · rfl
  · simp [h]

theorem World.publishBlk_store_self {ok : Bool} {b : ℕ} {bap : ℕ → ℕ} (h : sync = true → ok = true) :
    (w.publishBlk fs sync ok b bap).store fs b = bap := by
  rw [World.publishBlk_ok h]
  simp

/-- What the loop does below an indirect block of height `k + 1`: to the block's tree what
`BallocTree` says, and nothing to the other blocks in use. -/
def WalkSpec (fs : MExt2fs) (env : BallocEnv) (sync : Bool) (lbn k : ℕ) (path : List Indir) :
    Prop :=
  ∀ (off j pref p : ℕ) (w : World),
    path.map Indir.off = digits fs.nindir (k + 1) off → off < fs.nindir ^ (k + 1) → p ≠ 0 →
    Sep fs.nindir (w.store fs) (k + 1) p →
    (∀ b, Mem fs.nindir (w.store fs) (k + 1) p b → w.avail b = false) →
    BallocTree fs env sync w (ballocWalk fs env sync lbn path j pref p w) (k + 1) p p off j ∧
      ∀ b, w.avail b = false → ¬ Mem fs.nindir (w.store fs) (k + 1) p b →
        (ballocWalk fs env sync lbn path j pref p w).2.store fs b = w.store fs b

/-- A new block in the slot of the last indirect block. -/
theorem BallocTree.placed {d : ℕ} {w₂ : World} (hp : p ≠ 0) (hs : Sep fs.nindir (w.store fs) (0 + 1) p)
    (hoff : off < fs.nindir ^ (0 + 1))
    (hu : ∀ b, Mem fs.nindir (w.store fs) (0 + 1) p b → w.avail b = false)
    (htook : World.Took fs w w₁ newb) (hd : d = off / fs.nindir ^ 0) (hnb : w.store fs p d = 0)
    (hw₂ : w₁.publishBlk fs sync (env.publish j) p (putPtr (w.store fs p) d newb) = w₂)
    (hq : Quiet w w₂) :
    BallocTree fs env sync w (none, w₂) (0 + 1) p p off j ∧
      ∀ b, w.avail b = false → ¬ Mem fs.nindir (w.store fs) (0 + 1) p b →
        w₂.store fs b = w.store fs b := by
  have hother : ∀ x, x ≠ p → w₂.store fs x = w.store fs x := by
    intro x hx
    rw [← hw₂, World.publishBlk_store_ne hx, htook.store]
  have c : BallocTree fs env sync w (none, w₂) 0 0 newb (off % fs.nindir ^ 0) (j + 1) := by
    rw [pow_zero, Nat.mod_one]
    subst hw₂
    exact .leaf htook World.publishBlk_avail World.publishBlk_freed
  refine ⟨?_, fun b _ hm => hother b (ne_root_of_not_mem hp hm)⟩
  by_cases hpub : sync = true → env.publish j = true
  · have hself : w₂.store fs p = putPtr (w.store fs p) d newb :=
      hw₂ ▸ World.publishBlk_store_self hpub
    exact .node_new hp hs hoff hu hq hd hnb hself (fun b hb _ => hother b hb) hpub c
  · have hst : w₂.store fs = w.store fs := by
      rw [← hw₂, World.publishBlk_lost hpub, htook.store]
    exact .node_lost hp hs hoff hu hq hd hnb (fun b _ => congrFun hst b) hpub c

/-- The volume with a new indirect block: it is cleared, and only the block above it is written. -/
structure NewIndir (fs : MExt2fs) (w w₁ w₂ : World) (p newb : ℕ) : Prop where
  other : ∀ x, x ≠ p → x ≠ newb → w₂.store fs x = w.store fs x
  blank : ∀ i, w₂.store fs newb i = 0
  avail : w₂.avail = w₁.avail
  freed : w₂.freed = w₁.freed

theorem World.Took.newIndir {ok : Bool} {bap : ℕ → ℕ} (htook : World.Took fs w w₁ newb) (hpn : p ≠ newb) :
    NewIndir fs w w₁ ((w₁.setBlk fs newb fun _ => 0).publishBlk fs sync ok p bap) p newb where
  other x hx hxn := by
    rw [World.publishBlk_store_ne hx, World.store_setBlk]
    simp only [if_neg hxn, htook.store]
  blank i := by
    rw [World.publishBlk_store_ne hpn.symm, World.store_setBlk]
    simp
  avail := by rw [World.publishBlk_avail, World.setBlk_avail]
  freed := by rw [World.publishBlk_freed, World.setBlk_freed]

/-- A new indirect block, with what the rounds behind did below it. -/
theorem BallocTree.grew {d : ℕ} {w₂ : World} (hp : p ≠ 0)
    (hs : Sep fs.nindir (w.store fs) (k + 1 + 1) p) (hoff : off < fs.nindir ^ (k + 1 + 1))
    (hu : ∀ b, Mem fs.nindir (w.store fs) (k + 1 + 1) p b → w.avail b = false)
    (htook : World.Took fs w w₁ newb) (hd : d = off / fs.nindir ^ (k + 1)) (hnb : w.store fs p d = 0)
    (hw₂ : (w₁.setBlk fs newb fun _ => 0).publishBlk fs sync (env.publish j) p
      (putPtr (w.store fs p) d newb) = w₂)
    (hindir : NewIndir fs w w₁ w₂ p newb) (hq : Quiet w r.2)
    (c : BallocTree fs env sync w₂ r (k + 1) newb newb (off % fs.nindir ^ (k + 1)) (j + 1))
    (hf : ∀ b, w₂.avail b = false → ¬ Mem fs.nindir (w₂.store fs) (k + 1) newb b →
      r.2.store fs b = w₂.store fs b) :
    BallocTree fs env sync w r (k + 1 + 1) p p off j ∧
      ∀ b, w.avail b = false → ¬ Mem fs.nindir (w.store fs) (k + 1 + 1) p b →
        r.2.store fs b = w.store fs b := by
  have hpu : w.avail p = false := hu p (mem_root hp)
  have hnew : ∀ b, w.avail b = false → b ≠ newb := by
    rintro b hb rfl
    rw [htook.free] at hb
    exact absurd hb (by decide)
  have hkeep : ∀ b, w.avail b = false → r.2.store fs b = w₂.store fs b := by
    intro b hb
    refine hf b ?_ fun hm => hnew b hb ((mem_blank htook.pos hindir.blank).1 hm)
    rw [hindir.avail]
    exact htook.quiet.avail_false hb
  have hframe : ∀ b, b ≠ p → w.avail b = false → r.2.store fs b = w.store fs b := by
    intro b hb hbu
    rw [hkeep b hbu, hindir.other b hb (hnew b hbu)]
  have cnew := BallocTree.of_new htook hindir.blank hindir.avail hindir.freed c
  refine ⟨?_, fun b hbu hm => hframe b (ne_root_of_not_mem hp hm) hbu⟩
  by_cases hpub : sync = true → env.publish j = true
  · have hself : r.2.store fs p = putPtr (w.store fs p) d newb := by
      rw [hkeep p hpu, ← hw₂, World.publishBlk_store_self hpub]
    exact .node_new hp hs hoff hu hq hd hnb hself hframe hpub cnew
  · have hst : ∀ b, w.avail b = false → r.2.store fs b = w.store fs b := by
      intro b hb
      rw [hkeep b hb, ← hw₂, World.publishBlk_lost hpub, World.store_setBlk]
      simp only [if_neg (hnew b hb), htook.store]
    exact .node_lost hp hs hoff hu hq hd hnb hst hpub cnew

/-- One round of the loop, given what the rounds behind it do. -/
theorem walkSpec_cons {lbn : ℕ} {ap : Indir} {rest : List Indir}
    (hrest : ∀ i, k = i + 1 → WalkSpec fs env sync lbn i rest) :
    WalkSpec fs env sync lbn k (ap :: rest) := by
  intro off j pref p w hdig hoff hp hs hu
  have hN := fs.nindir_pos
  have hq := ballocWalk_quiet fs env sync lbn (ap :: rest) j pref p w
  have hstep := ballocWalk_step fs env sync lbn ap rest j pref p w
  generalize ballocWalk fs env sync lbn (ap :: rest) j pref p w = r at hq hstep ⊢
  simp only [List.map_cons, digits, List.cons.injEq] at hdig
  obtain ⟨hap, hdigs⟩ := hdig
  have hlen : rest = [] ↔ k = 0 := by
    cases k <;> cases rest <;> simp [digits] at hdigs ⊢
  have hpu : w.avail p = false := hu p (mem_root hp)
  cases hstep with
  | failed e =>
    exact ⟨.of_congr hs hoff hu hq (fun _ _ => rfl) (fun h => absurd h (by simp))
      ⟨[], by simp, by simp⟩, fun _ _ _ => rfl⟩
  | refused choice =>
    exact ⟨.of_congr hs hoff hu hq (fun b _ => congrFun (World.lostBit_store fs w choice) b)
      (fun h => absurd h (by simp)) ⟨[], by simp, by simp⟩,
      fun b _ _ => congrFun (World.lostBit_store fs w choice) b⟩
  | gaveBack newb w₁ htook =>
    have hst : (w₁.blkfree fs env.bitmapOk newb).store fs = w.store fs := by
      rw [World.blkfree_store, htook.store]
    refine ⟨.of_congr hs hoff hu hq (fun b _ => congrFun hst b) (fun h => absurd h (by simp))
      ⟨[⟨newb, w₁.dev, w₁.image⟩], ?_, fun e he => ?_⟩, fun b _ _ => congrFun hst b⟩
    · rw [World.blkfree_freed, htook.freed]
    · rw [List.mem_singleton.1 he]
      exact ⟨by simp, newb, rfl, htook.free⟩
  | found hnil hnb =>
    obtain rfl := hlen.1 hnil
    refine ⟨.of_congr hs hoff hu hq (fun _ _ => rfl) (fun _ hzero => ?_) ⟨[], by simp, by simp⟩,
      fun _ _ _ => rfl⟩
    rw [lookup, if_neg hp, ← hap] at hzero
    exact absurd hzero hnb
  | placed newb w₁ htook hnil hnb =>
    obtain rfl := hlen.1 hnil
    exact BallocTree.placed hp hs hoff hu htook hap hnb rfl hq
  | down hcons hnb =>
    obtain ⟨i, rfl⟩ := Nat.exists_eq_succ_of_ne_zero fun h => hcons (hlen.2 h)
    have hd : off / fs.nindir ^ (i + 1) < fs.nindir := div_lt_of_lt_pow hN hoff
    rw [hap] at hnb hq ⊢
    obtain ⟨c, hf⟩ := hrest i rfl _ (j + 1) pref _ w hdigs (Nat.mod_lt _ (pow_pos hN _)) hnb
      (hs.child hp hd) fun b hb => hu b (mem_of_child hp hd hb)
    have hself := hf p hpu (hs.root_not_mem hp hd)
    refine ⟨.node hp hs hoff hu hq (fun i _ => congrFun hself i) (fun b _ hb hm => hf b hb hm)
      (fun h => absurd h hnb) ?_, fun b hb hm => hf b hb fun h => hm (mem_of_child hp hd h)⟩
    rw [hself]
    exact c
  | grew pref' newb w₁ htook hcons hnb =>
    obtain ⟨i, rfl⟩ := Nat.exists_eq_succ_of_ne_zero fun h => hcons (hlen.2 h)
    have hpn : p ≠ newb := by
      rintro rfl
      rw [htook.free] at hpu
      exact absurd hpu (by decide)
    generalize hw₂ : (w₁.setBlk fs newb fun _ => 0).publishBlk fs sync (env.publish j) p
      (putPtr (w.store fs p) ap.off newb) = w₂ at hq ⊢
    have hindir : NewIndir fs w w₁ w₂ p newb := hw₂ ▸ htook.newIndir hpn
    obtain ⟨c, hf⟩ := hrest i rfl _ (j + 1) pref' newb w₂ hdigs (Nat.mod_lt _ (pow_pos hN _))
      htook.pos (sep_blank hindir.blank) fun b hb => by
        rw [(mem_blank htook.pos hindir.blank).1 hb, hindir.avail]
        exact htook.avail_self
    exact BallocTree.grew hp hs hoff hu htook hap hnb hw₂ hindir hq c hf

/-- **The loop over the indirect blocks.** -/
theorem ballocWalk_spec (lbn : ℕ) :
    ∀ (k : ℕ) (path : List Indir), WalkSpec fs env sync lbn k path := by
  intro k
  induction k with
  | zero =>
    intro path
    cases path with
    | nil =>
      intro off j pref p w hdig
      simp [digits] at hdig
    | cons ap rest => exact walkSpec_cons fun i hi => absurd hi (Nat.succ_ne_zero i).symm
  | succ k ih =>
    intro path
    cases path with
    | nil =>
      intro off j pref p w hdig
      simp [digits] at hdig
    | cons ap rest =>
      refine walkSpec_cons fun i hi => ?_
      obtain rfl := Nat.succ_injective hi
      exact ih rest

end

/-! ### The inode -/

/-- The synchronous writes that a new pointer for a logical block needs. -/
def World.SyncOk (fs : MExt2fs) (w : World) (env : BallocEnv) (lbn : ℕ) : Prop :=
  match locate fs.nindir lbn with
  | some (s, off) =>
      PublishOk fs.nindir (w.store fs) env.publish (height s) (w.ip.slot s) off 0
  | none => True

/-- The situation in which `ext2_balloc` panics: a direct block is mapped behind the end of the
file, and the write needs more of it than the size accounts for. -/
def World.MappedPastEnd (fs : MExt2fs) (w : World) (lbn size : ℕ) : Prop :=
  lbn < NDADDR ∧ w.ip.db lbn ≠ 0 ∧ w.ip.size < (lbn + 1) * fs.bsize ∧
    fs.fragroundup (fs.blkoff w.ip.size) < fs.fragroundup size

/-- What a call of `ext2_balloc` from `w` that ends in `r` did to the inode. -/
structure BallocSpec (fs : MExt2fs) (env : BallocEnv) (sync : Bool) (lbn size : ℕ) (w : World)
    (r : Option Errno × World) : Prop where
  calm : Calm w r.2
  grows : MapGrows fs.nindir (w.store fs) (r.2.store fs) w.ip r.2.ip lbn w.Fresh
  used : ∀ b, r.2.Owned fs b → r.2.avail b = false
  failed : r.1 ≠ none → r.2.map fs lbn = w.map fs lbn
  found : w.map fs lbn ≠ 0 → r.2.map fs lbn = w.map fs lbn
  linked : r.1 = none → w.map fs lbn = 0 → (sync = true → w.SyncOk fs env lbn) →
    r.2.map fs lbn ≠ 0 ∧ w.avail (r.2.map fs lbn) = true
  unlinked : r.1 = none → w.map fs lbn = 0 → ¬ (sync = true → w.SyncOk fs env lbn) →
    r.2.map fs lbn = 0
  freed : ∃ evs, r.2.freed = w.freed ++ evs ∧ ∀ e ∈ evs, r.1 ≠ none ∧
    ∃ b : ℕ, e.bno = b ∧ w.avail b = true ∧ ¬ r.2.Owned fs b
  slots : ∀ s < NSLOTS, r.2.ip.slot s = w.ip.slot s ∨ ∃ off, locate fs.nindir lbn = some (s, off)
  panicked : r.2.panicked = w.panicked ∨ w.MappedPastEnd fs lbn size

section

variable {fs : MExt2fs} {env : BallocEnv} {sync : Bool} {w : World} {r : Option Errno × World}
variable {lbn size s off : ℕ}

theorem World.map_of_locate (w : World) (hl : locate fs.nindir lbn = some (s, off)) :
    w.map fs lbn = lookup fs.nindir (w.store fs) (height s) (w.ip.slot s) off :=
  blockMap_of_locate hl

theorem map_direct (fs : MExt2fs) {i : ℕ} (h12 : i < 12) (w : World) : w.map fs i = w.ip.db i := by
  have hl : locate fs.nindir i = some (i, 0) := by simp [locate, NDADDR, h12]
  rw [w.map_of_locate hl, height_direct h12, lookup, Inode.slot_direct h12]

/-- What happened to one tree of the inode happened to the inode. -/
theorem BallocSpec.of_slot (hs : w.Sound fs) (hl : locate fs.nindir lbn = some (s, off))
    (hcalm : Calm w r.2) (hpanic : r.2.panicked = w.panicked)
    (hslot : ∀ s' < NSLOTS, s' ≠ s → r.2.ip.slot s' = w.ip.slot s')
    (hframe : ∀ b, w.avail b = false →
      ¬ Mem fs.nindir (w.store fs) (height s) (w.ip.slot s) b → r.2.store fs b = w.store fs b)
    (c : BallocTree fs env sync w r (height s) (w.ip.slot s) (r.2.ip.slot s) off 0) :
    BallocSpec fs env sync lbn size w r := by
  obtain ⟨hsn, hoff, hlbn⟩ := locate_eq_some.1 hl
  have hbelow : ∀ s' < NSLOTS, s' ≠ s → ∀ b,
      Mem fs.nindir (w.store fs) (height s') (w.ip.slot s') b →
      r.2.store fs b = w.store fs b := fun s' hs' hne b hb =>
    hframe b (hs.used b ⟨s', hs', hb⟩) (hs.shaped.disjoint s' hs' s hsn hne b hb)
  have hnew : ∀ b, w.avail b = true → ¬ Owns fs.nindir (w.store fs) w.ip b := by
    intro b hav hb
    rw [hs.used b hb] at hav
    exact absurd hav (by decide)
  have hother : ∀ s' < NSLOTS, s' ≠ s → ∀ b,
      Mem fs.nindir (r.2.store fs) (height s') (r.2.ip.slot s') b →
      Mem fs.nindir (w.store fs) (height s') (w.ip.slot s') b := by
    intro s' hs' hne b hb
    rw [hslot s' hs' hne] at hb
    exact (mem_congr (hbelow s' hs' hne)).1 hb
  have hbefore := w.map_of_locate hl
  have hafter := r.2.map_of_locate hl
  have hsync : w.SyncOk fs env lbn ↔
      PublishOk fs.nindir (w.store fs) env.publish (height s) (w.ip.slot s) off 0 := by
    simp only [World.SyncOk, hl]
  refine ⟨hcalm, ?_, fun b hb => ?_, ?_, ?_, ?_, ?_, ?_, fun s' hs' => ?_, .inl hpanic⟩
  · rw [hlbn]
    exact .of_slot fs.nindir_pos hsn hs.shaped hslot hbelow (fun b hb => hnew b hb.1) c.grows
  · obtain ⟨s', hs', hb⟩ := hb
    by_cases hne : s' = s
    · subst hne
      exact c.used b hb
    · exact hcalm.avail_false (hs.used b ⟨s', hs', hother s' hs' hne b hb⟩)
  · rw [hbefore, hafter]
    exact c.failed
  · rw [hbefore, hafter]
    exact c.found
  · rw [hbefore, hafter, hsync]
    exact c.linked
  · rw [hbefore, hafter, hsync]
    exact c.unlinked
  · obtain ⟨evs, hevs, hfresh⟩ := c.freed
    refine ⟨evs, hevs, fun e he => ?_⟩
    obtain ⟨hfail, b, hb, hav, hm⟩ := hfresh e he
    refine ⟨hfail, b, hb, hav, fun howned => ?_⟩
    obtain ⟨s', hs', hb'⟩ := howned
    by_cases hne : s' = s
    · subst hne
      exact hm hb'
    · exact hnew b hav ⟨s', hs', hother s' hs' hne b hb'⟩
  · by_cases hne : s' = s
    · exact .inr ⟨off, hne ▸ hl⟩
    · exact .inl (hslot s' hs' hne)

/-- A call that leaves the pointers alone. -/
theorem BallocSpec.of_congr (hs : w.Sound fs) (hcalm : Calm w r.2) (hdb : r.2.ip.db = w.ip.db)
    (hib : r.2.ip.ib = w.ip.ib) (hst : r.2.store fs = w.store fs)
    (hres : r.1 = none → w.map fs lbn ≠ 0)
    (hfreed : ∃ evs, r.2.freed = w.freed ++ evs ∧ ∀ e ∈ evs, r.1 ≠ none ∧
      ∃ b : ℕ, e.bno = b ∧ w.avail b = true)
    (hpanic : r.2.panicked = w.panicked ∨ w.MappedPastEnd fs lbn size) :
    BallocSpec fs env sync lbn size w r := by
  have hslot : r.2.ip.slot = w.ip.slot := Inode.slot_congr hdb hib
  have howned : ∀ b, r.2.Owned fs b ↔ w.Owned fs b := by
    intro b
    simp only [World.Owned, Owns, hst, hslot]
  have hmap : r.2.map fs lbn = w.map fs lbn := by
    simp only [World.map, blockMap, hst, hslot]
  refine ⟨hcalm, .of_congr fs.nindir_pos hs.shaped hdb hib fun b _ => congrFun hst b,
    fun b hb => hcalm.avail_false (hs.used b ((howned b).1 hb)), fun _ => hmap, fun _ => hmap,
    fun hnone hzero => absurd hzero (hres hnone), fun hnone hzero => absurd hzero (hres hnone),
    ?_, fun s' _ => .inl (congrFun hslot s'), hpanic⟩
  obtain ⟨evs, hevs, hfresh⟩ := hfreed
  refine ⟨evs, hevs, fun e he => ?_⟩
  obtain ⟨hfail, b, hb, hav⟩ := hfresh e he
  refine ⟨hfail, b, hb, hav, fun h => ?_⟩
  rw [hs.used b ((howned b).1 h)] at hav
  exact absurd hav (by decide)

/-- The direct blocks. -/
theorem ballocDirect_spec (hs : w.Sound fs) (hlt : lbn < 12) :
    BallocSpec fs env sync lbn size w (ballocDirect fs env lbn size w) := by
  have hl : locate fs.nindir lbn = some (lbn, 0) := by simp [locate, NDADDR, hlt]
  have hslot : w.ip.slot lbn = w.ip.db lbn := Inode.slot_direct hlt
  have hmap : w.map fs lbn = w.ip.db lbn := by
    rw [w.map_of_locate hl, height_direct hlt, hslot, lookup]
  have hkeep : ∀ (e : Option Errno) (w' : World), Quiet w w' → w'.store fs = w.store fs →
      w'.freed = w.freed → (e = none → w.ip.db lbn ≠ 0) →
      BallocSpec fs env sync lbn size w (e, w') := by
    intro e w' hq hst hfr he
    exact .of_congr hs hq.toCalm hq.db hq.ib hst (fun h => hmap ▸ he h)
      ⟨[], by rw [hfr, List.append_nil], by simp⟩ (.inl hq.panicked)
  have hmark : Quiet w w.mark := ⟨⟨rfl, rfl, fun _ h => h⟩, rfl, rfl, rfl⟩
  simp only [ballocDirect]
  split
  · next h => exact hkeep _ w (.refl w) rfl rfl fun _ => h.1
  · next hfull =>
    split
    · next hnb =>
      split
      · split
        · exact hkeep _ _ hmark rfl rfl fun _ => hnb
        · exact hkeep _ w (.refl w) rfl rfl fun h => absurd h (by simp)
      · next hbig =>
        refine .of_congr hs ⟨rfl, rfl, fun _ h => h⟩ rfl rfl rfl (fun _ => hmap ▸ hnb)
          ⟨[], by simp, by simp⟩ (.inr ⟨hlt, hnb, ?_, ?_⟩)
        · by_contra hc
          exact hfull ⟨hnb, by omega⟩
        · omega
    · next hnb =>
      split
      · exact hkeep _ _ (.lostBit fs w _) (World.lostBit_store fs w _) (World.lostBit_freed fs w _)
          fun h => absurd h (by simp)
      · next newb w₁ htake =>
        have htook := World.takeBlock_spec htake
        have hzero : w.ip.db lbn = 0 := not_not.1 hnb
        rw [htook.u32]
        split
        · -- the pointer is put back before the block is
          have hback : World.Took fs w ((w₁.setDb lbn newb).setDb lbn 0) newb := by
            refine { htook with db := ?_ }
            funext i
            simp only [World.setDb, htook.db]
            split
            · next hi => rw [hi, hzero]
            · rfl
          have hq := hback.undo env.bitmapOk
          refine .of_congr hs hq.toCalm hq.db hq.ib (by rw [World.blkfree_store, hback.store])
            (fun h => absurd h (by simp)) ⟨[⟨newb, w₁.dev, w₁.image⟩], ?_, fun e he => ?_⟩
            (.inl hq.panicked)
          · rw [World.blkfree_freed, hback.freed]
            rfl
          · rw [List.mem_singleton.1 he]
            exact ⟨by simp, newb, rfl, htook.free⟩
        · refine .of_slot hs hl ⟨htook.size, htook.image, htook.quiet.avail⟩ htook.panicked
            (fun s' _ hne => ?_) (fun b _ _ => congrFun htook.store b) ?_
          · rw [World.mark_slot, World.setDb_slot _ hlt, if_neg hne, htook.slot]
          · have hnew : ((w₁.setDb lbn newb).mark).ip.slot lbn = newb := by
              rw [World.mark_slot, World.setDb_slot _ hlt, if_pos rfl]
            rw [height_direct hlt, hslot, hzero, hnew]
            exact .leaf htook rfl rfl

/-- The indirect blocks. -/
theorem ballocIndirect_spec {ap : Indir} {path : List Indir} (hs : w.Sound fs)
    (hl : locate fs.nindir lbn = some (s, off)) (h12 : 12 ≤ s) (hap : ap.off = s - 12)
    (hdig : path.map Indir.off = digits fs.nindir (height s) off) :
    BallocSpec fs env sync lbn size w (ballocIndirect fs env sync lbn ap path w) := by
  obtain ⟨hsn, hoff, _⟩ := locate_eq_some.1 hl
  obtain ⟨k, hk⟩ : ∃ k, height s = k + 1 := ⟨s - 12, by unfold height NDADDR; omega⟩
  rw [hk] at hoff hdig
  have hslot : w.ip.slot s = w.ip.ib ap.off := by rw [Inode.slot_indirect h12, hap]
  have hsep : Sep fs.nindir (w.store fs) (k + 1) (w.ip.slot s) := hk ▸ hs.shaped.sep s hsn
  have hused : ∀ b, Mem fs.nindir (w.store fs) (k + 1) (w.ip.slot s) b → w.avail b = false :=
    fun b hb => hs.used b ⟨s, hsn, hk ▸ hb⟩
  simp only [ballocIndirect]
  split
  · next hnb =>
    rw [← hslot] at hnb ⊢
    have hq := ballocWalk_quiet fs env sync lbn path 0 0 (w.ip.slot s) w
    obtain ⟨c, hf⟩ := ballocWalk_spec lbn k path off 0 0 _ w hdig hoff hnb hsep hused
    have hslots := Inode.slot_congr hq.db hq.ib
    refine .of_slot hs hl hq.toCalm hq.panicked (fun s' _ _ => congrFun hslots s') ?_ ?_
    · rw [hk]
      exact hf
    · rw [hk, congrFun hslots s]
      exact c
  · next hnb =>
    rw [← hslot] at hnb
    have hzero : w.ip.slot s = 0 := not_not.1 hnb
    split
    · have hq := Quiet.lostBit fs w (env.alloc 0 (ext2Blkpref fs w.ip lbn (ap.off + NDADDR)
        w.ip.slot 0))
      exact .of_congr hs hq.toCalm hq.db hq.ib (World.lostBit_store fs w _)
        (fun h => absurd h (by simp)) ⟨[], by simp, by simp⟩ (.inl hq.panicked)
    · next newb w₁ htake =>
      have htook := World.takeBlock_spec htake
      have hundo : BallocSpec fs env sync lbn size w
          (some .eio, w₁.blkfree fs env.bitmapOk newb) := by
        have hq := htook.undo env.bitmapOk
        refine .of_congr hs hq.toCalm hq.db hq.ib (by rw [World.blkfree_store, htook.store])
          (fun h => absurd h (by simp)) ⟨[⟨newb, w₁.dev, w₁.image⟩], ?_, fun e he => ?_⟩
          (.inl hq.panicked)
        · rw [World.blkfree_freed, htook.freed]
        · rw [List.mem_singleton.1 he]
          exact ⟨by simp, newb, rfl, htook.free⟩
      split
      · exact hundo
      · split
        · exact hundo
        · rw [htook.u32]
          generalize ext2Blkpref fs w.ip lbn (ap.off + NDADDR) w.ip.slot 0 = pref
          have hst : ∀ x, (((w₁.setBlk fs newb fun _ => 0).setIb ap.off newb).mark).store fs x
              = if x = newb then fun _ => 0 else w.store fs x := by
            intro x
            rw [World.mark_store, World.setIb_store, World.store_setBlk, htook.store]
          have hslots : ∀ x, (((w₁.setBlk fs newb fun _ => 0).setIb ap.off newb).mark).ip.slot x
              = if x = s then newb else w.ip.slot x := by
            intro x
            rw [World.mark_slot, World.setIb_slot, World.setBlk_ip, htook.slot, hap,
              Nat.sub_add_cancel h12]
          generalize hw₂ : ((w₁.setBlk fs newb fun _ => 0).setIb ap.off newb).mark = w₂ at hst hslots ⊢
          have hav : w₂.avail = w₁.avail := hw₂ ▸ rfl
          have hblank : ∀ i, w₂.store fs newb i = 0 := fun i => by rw [hst, if_pos rfl]
          have hnew : ∀ b, w.avail b = false → b ≠ newb := by
            rintro b hb rfl
            rw [htook.free] at hb
            exact absurd hb (by decide)
          have hq := ballocWalk_quiet fs env sync lbn path 0 pref newb w₂
          obtain ⟨c, hf⟩ := ballocWalk_spec lbn k path off 0 pref newb w₂ hdig hoff htook.pos
            (sep_blank hblank) fun b hb => by
              rw [(mem_blank htook.pos hblank).1 hb, hav]
              exact htook.avail_self
          have hcalm : Calm w w₂ := hw₂ ▸ ⟨htook.size, htook.image, htook.quiet.avail⟩
          refine .of_slot hs hl (hcalm.trans hq.toCalm) ?_ (fun s' hs' hne => ?_)
            (fun b hb _ => ?_) ?_
          · rw [hq.panicked, ← hw₂]
            exact htook.panicked
          · rw [Inode.slot_congr hq.db hq.ib, hslots, if_neg hne]
          · rw [hf b, hst, if_neg (hnew b hb)]
            · rw [hav]
              exact htook.quiet.avail_false hb
            · exact fun h => hnew b hb ((mem_blank htook.pos hblank).1 h)
          · rw [hk, Inode.slot_congr hq.db hq.ib, hslots, if_pos rfl, hzero]
            exact .of_new htook hblank hav (hw₂ ▸ rfl) c

/-- The `i_next_alloc` fields play no part in the block map. -/
theorem BallocSpec.of_bump {l : ℤ} (h : BallocSpec fs env sync lbn size (w.bumpNextAlloc l) r) :
    BallocSpec fs env sync lbn size w r := by
  unfold World.bumpNextAlloc at h
  split at h
  · exact ⟨⟨h.calm.size, h.calm.image, h.calm.avail⟩,
      ⟨h.grows.map_ne, h.grows.owns_mono, h.grows.owns_fresh, h.grows.on_path,
        h.grows.shaped⟩, h.used, h.failed,
      h.found, h.linked, h.unlinked, h.freed, h.slots, h.panicked⟩
  · exact h

theorem World.Sound.bump (hs : w.Sound fs) (l : ℤ) : (w.bumpNextAlloc l).Sound fs := by
  unfold World.bumpNextAlloc
  split
  · exact ⟨⟨hs.shaped.sep, hs.shaped.disjoint⟩, hs.used⟩
  · exact hs

/-- **What `ext2_balloc` does.**  On a consistent volume only the block it was called for may become
mapped, to a block that was free; what it frees is referenced nowhere; and it panics only on a
direct block that is mapped behind the end of the file. -/
theorem ext2Balloc_spec (env : BallocEnv) (sync : Bool) (lbn size : ℕ) (hs : w.Sound fs) :
    BallocSpec fs env sync lbn size w (ext2Balloc fs env sync lbn size w) := by
  unfold ext2Balloc
  rw [if_neg (by omega)]
  refine .of_bump (l := lbn) ?_
  have hs₀ := hs.bump (lbn : ℤ)
  simp only [Int.toNat_natCast]
  split
  · next hlt => exact ballocDirect_spec hs₀ (by unfold NDADDR at hlt; omega)
  · next hge =>
    have hge' : ¬ lbn < 12 := by unfold NDADDR at hge; omega
    cases hl : locate fs.nindir lbn with
    | none =>
      rw [getlbns_efbig fs.nindir_lt (locate_eq_none.1 hl)]
      refine .of_congr hs₀ (Quiet.refl _).toCalm rfl rfl rfl (fun h => absurd h (by simp))
        ⟨[], by simp, by simp⟩ (.inl rfl)
    | some so =>
      obtain ⟨s, off⟩ := so
      have h12 : 12 ≤ s := by
        by_contra hc
        have hc' : s < 12 := by omega
        obtain ⟨_, hoff, hlbn⟩ := locate_eq_some.1 hl
        simp only [height_direct hc', pow_zero, base_direct hc'] at hoff hlbn
        omega
      obtain ⟨ap, path, hget, hap, hdig, _⟩ := getlbns_path fs.nindir_pos fs.nindir_lt hl h12
      rw [hget]
      exact ballocIndirect_spec hs₀ hl h12 hap hdig

/-- A consistent volume stays consistent. -/
theorem ext2Balloc_sound (env : BallocEnv) (sync : Bool) (lbn size : ℕ) (hs : w.Sound fs) :
    (ext2Balloc fs env sync lbn size w).2.Sound fs :=
  ⟨(ext2Balloc_spec env sync lbn size hs).grows.shaped,
    (ext2Balloc_spec env sync lbn size hs).used⟩

end

/-! ### When `ext2_balloc` is right -/

/-- What a caller of `ext2_balloc` relies on, for a call from `w` that ends in `r`. -/
structure BallocCorrect (fs : MExt2fs) (lbn : ℕ) (w : World) (r : Option Errno × World) :
    Prop where
  mapped : w.map fs lbn ≠ 0 → ∀ l, r.2.map fs l = w.map fs l
  success : r.1 = none → w.map fs lbn = 0 →
    (r.2.map fs lbn ≠ 0 ∧ w.avail (r.2.map fs lbn) = true) ∧
      ∀ l, l ≠ lbn → r.2.map fs l = w.map fs l
  failure : r.1 ≠ none → (∀ l, r.2.map fs l = w.map fs l) ∧
    ∀ e ∈ r.2.freed.drop w.freed.length, ∀ b : ℕ, e.bno = b → ¬ r.2.Owned fs b

/-- **When `ext2_balloc` is right.**  A call that fails is; a call that succeeds is exactly when it
did not lose a pointer to a failed synchronous write of an indirect block. -/
theorem ext2Balloc_correct_iff (fs : MExt2fs) (env : BallocEnv) (sync : Bool) (lbn size : ℕ)
    (w : World) (hs : w.Sound fs) :
    ((ext2Balloc fs env sync lbn size w).1 ≠ none →
      BallocCorrect fs lbn w (ext2Balloc fs env sync lbn size w)) ∧
    ((ext2Balloc fs env sync lbn size w).1 = none →
      (BallocCorrect fs lbn w (ext2Balloc fs env sync lbn size w) ↔
        (sync = true → w.map fs lbn = 0 → w.SyncOk fs env lbn))) := by
  have spec := ext2Balloc_spec env sync lbn size hs
  generalize ext2Balloc fs env sync lbn size w = r at spec ⊢
  have hsame : r.2.map fs lbn = w.map fs lbn → ∀ l, r.2.map fs l = w.map fs l := by
    intro h l
    by_cases hl : l = lbn
    · rw [hl, h]
    · exact spec.grows.map_ne l hl
  have hfreed : ∀ e ∈ r.2.freed.drop w.freed.length, ∀ b : ℕ, e.bno = b → ¬ r.2.Owned fs b := by
    obtain ⟨evs, hevs, hfresh⟩ := spec.freed
    rw [hevs, List.drop_left]
    intro e he b hb
    obtain ⟨_, b', hb', _, hown⟩ := hfresh e he
    rw [hb, Int.natCast_inj] at hb'
    exact hb' ▸ hown
  refine ⟨fun hfail => ?_, fun hok => ⟨fun h hsync hzero => ?_, fun h => ?_⟩⟩
  · exact ⟨fun hne => hsame (spec.found hne), fun hnone => absurd hnone hfail,
      fun _ => ⟨hsame (spec.failed hfail), hfreed⟩⟩
  · by_contra hbad
    exact (h.success hok hzero).1.1 (spec.unlinked hok hzero fun hsync' => hbad (hsync' hsync))
  · exact ⟨fun hne => hsame (spec.found hne),
      fun _ hzero => ⟨spec.linked hok hzero fun hsync => h hsync hzero, spec.grows.map_ne⟩,
      fun hfail => absurd hok hfail⟩

/-- Everything succeeds but the synchronous write of the first indirect block; the blocks 100 and 200
are allocated. -/
def lostWrite : BallocEnv where
  alloc := fun j _ => some (if j = 0 then 100 else 200)
  getblk := fun _ => true
  zeroWrite := fun _ => true
  read := fun _ => true
  publish := fun _ => false
  dataGet := true
  bitmapOk := fun _ => true

/-- Without `IO_SYNC` the first indirect block of an empty file is written later. -/
theorem ext2Balloc_correct_example :
    BallocCorrect volume4k 12 (World.empty fun _ => true)
      (ext2Balloc volume4k lostWrite false 12 4096 (World.empty fun _ => true)) :=
  ((ext2Balloc_correct_iff volume4k lostWrite false 12 4096 _ (World.empty_sound _)).2 rfl).2
    (by simp)

/-- With `IO_SYNC` the write fails, the call returns 0, and the block is still a hole. -/
theorem ext2Balloc_loses_block :
    ¬ BallocCorrect volume4k 12 (World.empty fun _ => true)
      (ext2Balloc volume4k lostWrite true 12 4096 (World.empty fun _ => true)) := by
  intro h
  have hok : (ext2Balloc volume4k lostWrite true 12 4096 (World.empty fun _ => true)).1 = none :=
    rfl
  have hzero := World.empty_map volume4k (fun _ => true) 12
  refine (h.success hok hzero).1.1 ?_
  refine (ext2Balloc_spec lostWrite true 12 4096 (World.empty_sound _)).unlinked hok hzero ?_
  intro hsync
  have hpub := hsync rfl
  have hl : locate volume4k.nindir 12 = some (12, 0) := by decide
  simp [World.SyncOk, hl, PublishOk, World.empty_slot, lostWrite] at hpub

end Ext2fs
