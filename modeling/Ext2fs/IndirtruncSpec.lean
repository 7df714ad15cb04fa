import Ext2fs.Truncate

/-!
# What `ext2_indirtrunc` releases

A call for an indirect block writes the block without the pointers that go and frees, once each, the
blocks that only these pointers led to.  `Releases` says so of any two states, and composes
(`Releases.trans`); `TrimSpec` adds what becomes of the tree below the block.

* `indirLoop_spec` — the loop releases the trees behind the last kept pointer;
* `indirtruncBody_spec` — one level, given the level below;
* `ext2Indirtrunc_spec` — every level.
-/

namespace Ext2fs

open PtrTree

/-! ### Releasing blocks -/

/-- The pointers of each file system block at the moment of a free. -/
def FreeEvent.store (fs : MExt2fs) (e : FreeEvent) : Store := fun b => e.dev (fs.fsbtodb b)

/-- The block numbers of a set of blocks. -/
def nums (P : ℕ → Prop) (n : ℤ) : Prop := ∃ b : ℕ, n = b ∧ P b

theorem nums_cast {P : ℕ → Prop} {b : ℕ} : nums P b ↔ P b := by
  constructor
  · rintro ⟨b', hb, h⟩
    rw [Int.natCast_inj] at hb
    exact hb ▸ h
  · exact fun h => ⟨b, rfl, h⟩

/-- From `w` to `w'` only blocks in `tree` were written and only the numbers in `cut` were freed,
none of them twice, and if `ok` all of them; every call of `ext2_blkfree` satisfies `evt`. -/
structure Releases (fs : MExt2fs) (w w' : World) (tree : ℕ → Prop) (cut : ℤ → Prop) (ok : Prop)
    (evt : FreeEvent → Prop) : Prop where
  image : w'.image = w.image
  panicked : w'.panicked = w.panicked
  frame : ∀ x, ¬ tree x → w'.store fs x = w.store fs x
  freed : ∃ evs, w'.freed = w.freed ++ evs ∧ (evs.map FreeEvent.bno).Nodup ∧
    (∀ e ∈ evs, cut e.bno ∧ evt e) ∧ (ok → ∀ n, cut n → n ∈ evs.map FreeEvent.bno) ∧
    ∀ x : ℕ, (x : ℤ) ∉ evs.map FreeEvent.bno → w'.avail x = w.avail x

section

variable {fs : MExt2fs} {w w₁ w₂ w₃ : World} {tree tree' : ℕ → Prop} {cut cut' : ℤ → Prop}
variable {ok ok' : Prop} {evt evt' : FreeEvent → Prop}

namespace Releases

/-- Nothing is released. -/
theorem refl (w : World) (h : ok → ∀ n, ¬ cut n) : Releases fs w w tree cut ok evt :=
  ⟨rfl, rfl, fun _ _ => rfl,
    ⟨[], by simp, by simp, by simp, fun hok n hn => absurd hn (h hok n), fun _ _ => rfl⟩⟩

theorem mono (h : Releases fs w₁ w₂ tree cut ok evt) (htree : ∀ x, tree x → tree' x)
    (hcut : ∀ n, cut n ↔ cut' n) (hok : ok' → ok) (hevt : ∀ e, cut e.bno → evt e → evt' e) :
    Releases fs w₁ w₂ tree' cut' ok' evt' := by
  obtain ⟨evs, hfreed, hnodup, hmem, hall, havail⟩ := h.freed
  refine ⟨h.image, h.panicked, fun x hx => h.frame x fun ht => hx (htree x ht), evs, hfreed,
    hnodup, fun e he => ⟨(hcut _).1 (hmem e he).1, hevt e (hmem e he).1 (hmem e he).2⟩,
    fun hok' n hn => hall (hok hok') n ((hcut n).2 hn), havail⟩

/-- A block that is not freed stays as it was. -/
theorem avail_eq (h : Releases fs w₁ w₂ tree cut ok evt) {x : ℕ} (hx : ¬ cut x) :
    w₂.avail x = w₁.avail x := by
  obtain ⟨evs, _, _, hmem, _, havail⟩ := h.freed
  refine havail x fun hin => hx ?_
  obtain ⟨e, he, hbno⟩ := List.mem_map.1 hin
  rw [← hbno]
  exact (hmem e he).1

/-- First one part, then another one. -/
theorem trans (h : Releases fs w₁ w₂ tree cut ok evt) (h' : Releases fs w₂ w₃ tree cut' ok evt)
    (hdisj : ∀ n, cut n → ¬ cut' n) :
    Releases fs w₁ w₃ tree (fun n => cut n ∨ cut' n) ok evt := by
  obtain ⟨evs, hfreed, hnodup, hmem, hall, havail⟩ := h.freed
  obtain ⟨evs', hfreed', hnodup', hmem', hall', havail'⟩ := h'.freed
  refine ⟨h'.image.trans h.image, h'.panicked.trans h.panicked,
    fun x hx => (h'.frame x hx).trans (h.frame x hx), evs ++ evs', ?_, ?_, ?_, ?_, ?_⟩
  · rw [hfreed', hfreed, List.append_assoc]
  · rw [List.map_append]
    refine hnodup.append hnodup' fun n hn hn' => ?_
    obtain ⟨e, he, rfl⟩ := List.mem_map.1 hn
    obtain ⟨e', he', hbno⟩ := List.mem_map.1 hn'
    refine hdisj e.bno (hmem e he).1 ?_
    rw [← hbno]
    exact (hmem' e' he').1
  · intro e he
    rcases List.mem_append.1 he with he | he
    · exact ⟨.inl (hmem e he).1, (hmem e he).2⟩
    · exact ⟨.inr (hmem' e he).1, (hmem' e he).2⟩
  · intro hok n hn
    rw [List.map_append, List.mem_append]
    exact hn.imp (hall hok n) (hall' hok n)
  · intro x hx
    rw [List.map_append, List.mem_append, not_or] at hx
    rw [havail' x hx.2, havail x hx.1]

/-- One call of `ext2_blkfree` for a block in use. -/
theorem free {bitmapOk : ℤ → Bool} {bno : ℤ} (hused : 0 ≤ bno → w.avail bno.toNat = false)
    (hevt : evt ⟨bno, w.dev, w.image⟩) :
    Releases fs w (w.blkfree fs bitmapOk bno) tree (fun n => n = bno) ok evt := by
  refine ⟨World.blkfree_image, World.blkfree_panicked hused,
    fun x _ => congrFun World.blkfree_store x, [⟨bno, w.dev, w.image⟩], World.blkfree_freed,
    List.nodup_singleton _, ?_, ?_, ?_⟩
  · intro e he
    rw [List.mem_singleton.1 he]
    exact ⟨rfl, hevt⟩
  · rintro _ n rfl
    simp
  · intro x hx
    exact World.blkfree_avail_ne (by simpa using hx)

end Releases

/-- What a call of `ext2_blkfree` sees when only blocks in `tree` have been written since `w`. -/
def FreeEvent.Within (fs : MExt2fs) (tree : ℕ → Prop) (w : World) (e : FreeEvent) : Prop :=
  e.image = w.image ∧ ∀ x, ¬ tree x → e.store fs x = w.store fs x

theorem FreeEvent.Within.of_releases {e : FreeEvent} (he : e.Within fs tree w₂)
    (h : Releases fs w₁ w₂ tree cut ok evt) : e.Within fs tree w₁ :=
  ⟨he.1.trans h.image, fun x hx => (he.2 x hx).trans (h.frame x hx)⟩

theorem FreeEvent.Within.mono {e : FreeEvent} (he : e.Within fs tree w)
    (h : ∀ x, tree x → tree' x) : e.Within fs tree' w :=
  ⟨he.1, fun x hx => he.2 x fun ht => hx (h x ht)⟩

end

/-! ### One tree -/

/-- All writes of indirect blocks reach the device. -/
def TruncEnv.WritesOk (env : TruncEnv) : Prop := env.async = true ∨ ∀ a, env.write a = true

/-- The indirect blocks on the way to offset `c - 1` from which something is cut can be read and
written. -/
def PathIo (fs : MExt2fs) (env : TruncEnv) (st : Store) : ℕ → ℕ → ℕ → Prop
  | 0, _, _ => True
  | k + 1, p, c => p ≠ 0 → (∀ b, ¬ Cut fs.nindir st (k + 1) p c b) ∨
      env.read (fs.fsbtodb p) = true ∧
      (env.async = true ∨ env.write (fs.fsbtodb p) = true) ∧
      PathIo fs env st k (st p ((c - 1) / fs.nindir ^ k))
        (c - (c - 1) / fs.nindir ^ k * fs.nindir ^ k)

theorem PathIo.of_no_cut {fs : MExt2fs} {env : TruncEnv} {st : Store} {k p c : ℕ}
    (h : ∀ b, ¬ Cut fs.nindir st k p c b) : PathIo fs env st k p c := by
  cases k with
  | zero => trivial
  | succ k => exact fun _ => .inl h

/-- What a call of `ext2_blkfree` sees during `ext2_indirtrunc` for the tree rooted at `p`: nothing
outside the tree has changed, and when the tree is kept in part, the block is no longer in it. -/
def CutEvent (fs : MExt2fs) (env : TruncEnv) (st : Store) (k p c : ℕ) (w : World)
    (e : FreeEvent) : Prop :=
  e.Within fs (Mem fs.nindir st k p) w ∧
    (0 < c → env.WritesOk → ∀ b : ℕ, e.bno = b → ¬ Mem fs.nindir (e.store fs) k p b)

/-- What a call of `ext2_indirtrunc` from `w` for the tree of height `k` rooted at `p`, of which the
first `c` blocks are kept, does; `st` are the pointers of the tree. -/
structure TrimSpec (fs : MExt2fs) (env : TruncEnv) (st : Store) (k p c : ℕ) (w : World)
    (r : Freeing) : Prop where
  releases : Releases fs w r.world (Mem fs.nindir st k p)
    (nums fun b => b ≠ p ∧ Cut fs.nindir st k p c b) (r.allerror = none)
    (CutEvent fs env st k p c w)
  ip : r.world.ip = w.ip
  path : 0 < c → r.allerror = none → PathIo fs env st k p c
  trims : 0 < c → PathIo fs env st k p c → Trims fs.nindir st (r.world.store fs) k p c

/-- The tree is as `st` has it, and its blocks are in use. -/
structure Intact (fs : MExt2fs) (st : Store) (k p : ℕ) (w : World) : Prop where
  store : ∀ b, Mem fs.nindir st k p b → w.store fs b = st b
  used : ∀ b, Mem fs.nindir st k p b → w.avail b = false

/-- What the recursive call of `ext2_indirtrunc` is worth for trees of height `k`. -/
def SubSpec (fs : MExt2fs) (env : TruncEnv) (k : ℕ) : Option Indirtrunc → Prop
  | none => k = 0
  | some f => 0 < k ∧ ∀ (st : Store) (p c : ℕ) (w : World), p ≠ 0 → c ≤ fs.nindir ^ k →
      Sep fs.nindir st k p → Intact fs st k p w →
      TrimSpec fs env st k p c w (f (fs.fsbtodb p) ((c : ℤ) - 1) w)

theorem laterError_eq_none {e e' : Option Errno} :
    laterError e e' = none ↔ e = none ∧ e' = none := by
  cases e <;> cases e' <;> simp [laterError]

section

variable {fs : MExt2fs} {env : TruncEnv} {sub : Option Indirtrunc} {st : Store} {k p c : ℕ}
variable {w w' : World}

/-- Work outside a tree leaves the tree intact. -/
theorem Intact.of_releases {tree : ℕ → Prop} {cut : ℤ → Prop} {ok : Prop}
    {evt : FreeEvent → Prop} (h : Intact fs st k p w) (hr : Releases fs w w' tree cut ok evt)
    (htree : ∀ b, Mem fs.nindir st k p b → ¬ tree b)
    (hcut : ∀ b : ℕ, Mem fs.nindir st k p b → ¬ cut b) : Intact fs st k p w' :=
  ⟨fun b hb => (hr.frame b (htree b hb)).trans (h.store b hb),
    fun b hb => (hr.avail_eq (hcut b hb)).trans (h.used b hb)⟩

/-- The blocks of a whole tree, root included. -/
theorem mem_iff_root_or_cut (hp : p ≠ 0) (b : ℕ) :
    Mem fs.nindir st k p b ↔ (b ≠ p ∧ Cut fs.nindir st k p 0 b) ∨ b = p := by
  rw [cut_zero]
  constructor
  · intro h
    by_cases hb : b = p
    · exact .inr hb
    · exact .inl ⟨hb, h⟩
  · rintro (⟨_, h⟩ | rfl)
    · exact h
    · exact mem_root hp

/-- A tree that goes as a whole, its root last. -/
theorem releaseTree_spec (hsub : SubSpec fs env k sub) (hp : p ≠ 0) (hs : Sep fs.nindir st k p)
    {s : Freeing} (hi : Intact fs st k p s.world) :
    Releases fs s.world (releaseTree fs env sub p s).world (Mem fs.nindir st k p)
      (nums (Mem fs.nindir st k p)) ((releaseTree fs env sub p s).allerror = none)
      (FreeEvent.Within fs (Mem fs.nindir st k p) s.world) ∧
    (releaseTree fs env sub p s).world.ip = s.world.ip ∧
    ((releaseTree fs env sub p s).allerror = none → s.allerror = none) := by
  cases sub with
  | none =>
    obtain rfl : k = 0 := hsub
    refine ⟨?_, World.blkfree_ip, id⟩
    refine (Releases.free (fun _ => hi.used p (mem_root hp)) ⟨rfl, fun _ _ => rfl⟩).mono
      (fun _ h => h) (fun n => ?_) id fun _ _ h => h
    constructor
    · rintro rfl
      exact ⟨p, rfl, mem_root hp⟩
    · rintro ⟨b, rfl, hb⟩
      rw [hb.2]
  | some f =>
    have ht := hsub.2 st p 0 s.world hp (Nat.zero_le _) hs hi
    rw [Nat.cast_zero, zero_sub] at ht
    have hok : (releaseTree fs env (some f) p s).allerror = none →
        (f (fs.fsbtodb p) (-1) s.world).allerror = none := fun h => (laterError_eq_none.1 h).2
    have h1 := ht.releases.mono (fun _ h => h) (fun _ => Iff.rfl) hok fun e _ he => he.1
    have hroot : (f (fs.fsbtodb p) (-1) s.world).world.avail p = false := by
      rw [ht.releases.avail_eq, hi.used p (mem_root hp)]
      rw [nums_cast]
      exact fun h => h.1 rfl
    have h2 : Releases fs (f (fs.fsbtodb p) (-1) s.world).world
        (releaseTree fs env (some f) p s).world (Mem fs.nindir st k p) (fun n => n = p)
        ((releaseTree fs env (some f) p s).allerror = none)
        (FreeEvent.Within fs (Mem fs.nindir st k p) s.world) :=
      Releases.free (fun _ => hroot) ⟨ht.releases.image, fun x hx => ht.releases.frame x hx⟩
    refine ⟨?_, World.blkfree_ip.trans ht.ip, fun h => (laterError_eq_none.1 h).1⟩
    refine (h1.trans h2 ?_).mono (fun _ h => h) (fun n => ?_) id fun _ _ h => h
    · rintro _ ⟨b, rfl, hb, _⟩ hbp
      exact hb (Int.natCast_inj.1 hbp)
    · constructor
      · rintro (⟨b, rfl, hb⟩ | rfl)
        · exact ⟨b, rfl, (mem_iff_root_or_cut hp b).2 (.inl hb)⟩
        · exact ⟨p, rfl, mem_root hp⟩
      · rintro ⟨b, rfl, hb⟩
        rcases (mem_iff_root_or_cut hp b).1 hb with hb | rfl
        · exact .inl ⟨b, rfl, hb⟩
        · exact .inr rfl

/-! ### The loop over the slots that go -/

/-- The blocks below the slots from `kept` to `kept + n - 1`. -/
def BelowSlots (fs : MExt2fs) (st : Store) (k : ℕ) (bap : ℕ → ℕ) (kept n b : ℕ) : Prop :=
  ∃ i, kept ≤ i ∧ i < kept + n ∧ Mem fs.nindir st k (bap i) b

theorem belowSlots_succ {bap : ℕ → ℕ} {kept n b : ℕ} :
    BelowSlots fs st k bap kept (n + 1) b ↔
      Mem fs.nindir st k (bap (kept + n)) b ∨ BelowSlots fs st k bap kept n b := by
  constructor
  · rintro ⟨i, hlo, hhi, hb⟩
    by_cases hi : i = kept + n
    · exact .inl (hi ▸ hb)
    · exact .inr ⟨i, hlo, by omega, hb⟩
  · rintro (hb | ⟨i, hlo, hhi, hb⟩)
    · exact ⟨kept + n, by omega, by omega, hb⟩
    · exact ⟨i, hlo, by omega, hb⟩

theorem indirLoop_spec {bap : ℕ → ℕ} {kept : ℕ} (hsub : SubSpec fs env k sub) : ∀ (n : ℕ)
    (s : Freeing),
    (∀ i, kept ≤ i → i < kept + n → Sep fs.nindir st k (bap i) ∧ Intact fs st k (bap i) s.world) →
    (∀ i < kept + n, ∀ j < kept + n, i ≠ j → ∀ b, Mem fs.nindir st k (bap i) b →
      ¬ Mem fs.nindir st k (bap j) b) →
    Releases fs s.world (indirLoop fs env sub bap kept n s).world
      (BelowSlots fs st k bap kept n) (nums (BelowSlots fs st k bap kept n))
      ((indirLoop fs env sub bap kept n s).allerror = none)
      (FreeEvent.Within fs (BelowSlots fs st k bap kept n) s.world) ∧
    (indirLoop fs env sub bap kept n s).world.ip = s.world.ip ∧
    ((indirLoop fs env sub bap kept n s).allerror = none → s.allerror = none) := by
  intro n
  induction n with
  | zero =>
    intro s _ _
    refine ⟨.refl _ ?_, rfl, id⟩
    rintro _ n ⟨b, _, i, hlo, hhi, _⟩
    omega
  | succ n ih =>
    intro s hch hdisj
    have hdisj' : ∀ i < kept + n, ∀ j < kept + n, i ≠ j → ∀ b, Mem fs.nindir st k (bap i) b →
        ¬ Mem fs.nindir st k (bap j) b := fun i hi j hj => hdisj i (by omega) j (by omega)
    rw [indirLoop]
    split
    · next hnb =>
      have hsame : ∀ b, BelowSlots fs st k bap kept (n + 1) b ↔
          BelowSlots fs st k bap kept n b := by
        intro b
        rw [belowSlots_succ, hnb]
        simp
      have hfun : BelowSlots fs st k bap kept (n + 1) = BelowSlots fs st k bap kept n :=
        funext fun b => propext (hsame b)
      rw [hfun]
      exact ih s (fun i hlo hhi => hch i hlo (by omega)) hdisj'
    · next hnb =>
      obtain ⟨hs, hi⟩ := hch (kept + n) (by omega) (by omega)
      obtain ⟨hrel, hip, herr⟩ := releaseTree_spec hsub hnb hs hi
      have hnot : ∀ i, kept ≤ i → i < kept + n → ∀ b, Mem fs.nindir st k (bap i) b →
          ¬ Mem fs.nindir st k (bap (kept + n)) b := fun i _ hhi b hb =>
        hdisj i (by omega) (kept + n) (by omega) (by omega) b hb
      obtain ⟨hrel', hip', herr'⟩ := ih (releaseTree fs env sub (bap (kept + n)) s)
        (fun i hlo hhi => ⟨(hch i hlo (by omega)).1, (hch i hlo (by omega)).2.of_releases hrel
          (hnot i hlo hhi) fun b hb => by rw [nums_cast]; exact hnot i hlo hhi b hb⟩) hdisj'
      have hsub₁ : ∀ b, Mem fs.nindir st k (bap (kept + n)) b →
          BelowSlots fs st k bap kept (n + 1) b := fun b hb => belowSlots_succ.2 (.inl hb)
      have hsub₂ : ∀ b, BelowSlots fs st k bap kept n b →
          BelowSlots fs st k bap kept (n + 1) b := fun b hb => belowSlots_succ.2 (.inr hb)
      have h1 := hrel.mono hsub₁ (fun _ => Iff.rfl) herr' fun _ _ he => he.mono hsub₁
      have h2 := hrel'.mono hsub₂ (fun _ => Iff.rfl) id
        fun _ _ he => (he.mono hsub₂).of_releases h1
      refine ⟨(h1.trans h2 ?_).mono (fun _ h => h) (fun m => ?_) id fun _ _ h => h,
        hip'.trans hip, fun h => herr (herr' h)⟩
      · rintro _ ⟨b, rfl, hb⟩ hb'
        obtain ⟨i, hlo, hhi, hbi⟩ := nums_cast.1 hb'
        exact hnot i hlo hhi b hbi hb
      · constructor
        · rintro (⟨b, rfl, hb⟩ | ⟨b, rfl, hb⟩)
          · exact ⟨b, rfl, hsub₁ b hb⟩
          · exact ⟨b, rfl, hsub₂ b hb⟩
        · rintro ⟨b, rfl, hb⟩
          exact (belowSlots_succ.1 hb).imp (fun h => ⟨b, rfl, h⟩) fun h => ⟨b, rfl, h⟩

/-! ### One level -/

/-- The number of slots of a node whose trees are kept, in whole or in part. -/
def keptSlots (N k c : ℕ) : ℕ := if c = 0 then 0 else (c - 1) / N ^ k + 1

/-- What a node without its root loses: the trees of the slots that go, and what the last kept tree
loses. -/
theorem cut_iff_belowSlots (hp : p ≠ 0) (hs : Sep fs.nindir st (k + 1) p)
    (hc : c ≤ fs.nindir ^ (k + 1)) (b : ℕ) :
    (b ≠ p ∧ Cut fs.nindir st (k + 1) p c b) ↔
      BelowSlots fs st k (st p) (keptSlots fs.nindir k c)
          (fs.nindir - keptSlots fs.nindir k c) b ∨
        (0 < c ∧ Cut fs.nindir st k (st p ((c - 1) / fs.nindir ^ k))
          (c - (c - 1) / fs.nindir ^ k * fs.nindir ^ k) b) := by
  rcases Nat.eq_zero_or_pos c with rfl | hpos
  · simp only [cut_zero, keptSlots, if_true, lt_irrefl, false_and, or_false]
    constructor
    · rintro ⟨hne, _, rfl | ⟨i, hi, hb⟩⟩
      · exact absurd rfl hne
      · exact ⟨i, Nat.zero_le _, by omega, hb⟩
    · rintro ⟨i, _, hi, hb⟩
      have hi' : i < fs.nindir := by omega
      refine ⟨?_, mem_of_child hp hi' hb⟩
      rintro rfl
      exact hs.root_not_mem hp hi' hb
  · have hlast := last_lt fs.nindir_pos hpos hc
    have hkept : keptSlots fs.nindir k c = (c - 1) / fs.nindir ^ k + 1 := if_neg (by omega)
    rw [hkept]
    constructor
    · rintro ⟨_, hb⟩
      refine ((cut_node fs.nindir_pos hp hpos hc).1 hb).imp ?_ fun h => ⟨hpos, h⟩
      rintro ⟨i, hi, hlt, hb⟩
      exact ⟨i, by omega, by omega, hb⟩
    · intro h
      have hb : Cut fs.nindir st (k + 1) p c b := by
        refine (cut_node fs.nindir_pos hp hpos hc).2 (h.imp ?_ fun h => h.2)
        rintro ⟨i, hlo, hhi, hb⟩
        exact ⟨i, by omega, by omega, hb⟩
      exact ⟨hb.ne_root hs hpos, hb⟩

/-- The write of the block of pointers: what it leaves alone, and what it writes. -/
structure WroteIndir (fs : MExt2fs) (env : TruncEnv) (p : ℕ) (last : ℤ) (bap : ℕ → ℕ) (w : World)
    (r : Option Errno × World) : Prop where
  ip : r.2.ip = w.ip
  image : r.2.image = w.image
  panicked : r.2.panicked = w.panicked
  freed : r.2.freed = w.freed
  avail : r.2.avail = w.avail
  other : ∀ x, x ≠ p → r.2.store fs x = w.store fs x
  error : r.1 = none ↔ env.async = true ∨ env.write (fs.fsbtodb p) = true
  self : last ≠ -1 → (env.async = true ∨ env.write (fs.fsbtodb p) = true) →
    r.2.store fs p = fun i : ℕ => if last < i then 0 else bap i
  lost : ¬ (env.async = true ∨ env.write (fs.fsbtodb p) = true) → r.2.store fs p = w.store fs p

theorem writeIndir_spec (fs : MExt2fs) (env : TruncEnv) (p : ℕ) (last : ℤ) (bap : ℕ → ℕ)
    (w : World) :
    WroteIndir fs env p last bap w (writeIndir env (fs.fsbtodb p) last bap w) := by
  have hblk : w.setDev (fs.fsbtodb p) (fun i : ℕ => if last < i then 0 else bap i)
      = w.setBlk fs p fun i : ℕ => if last < i then 0 else bap i := rfl
  have hother : ∀ x, x ≠ p →
      (w.setBlk fs p fun i : ℕ => if last < i then 0 else bap i).store fs x = w.store fs x := by
    intro x hx
    rw [World.store_setBlk]
    exact if_neg hx
  have hself : (w.setBlk fs p fun i : ℕ => if last < i then 0 else bap i).store fs p
      = fun i : ℕ => if last < i then 0 else bap i := by
    rw [World.store_setBlk]
    exact if_pos rfl
  unfold writeIndir
  simp only [hblk]
  split_ifs with hasync hinv hwrite hinv
  · exact ⟨rfl, rfl, rfl, rfl, rfl, fun _ _ => rfl, by simp [hasync], fun h => absurd hinv.1 h,
      fun _ => rfl⟩
  · exact ⟨rfl, rfl, rfl, rfl, rfl, hother, by simp [hasync], fun _ _ => hself,
      fun h => absurd (.inl hasync) h⟩
  · exact ⟨rfl, rfl, rfl, rfl, rfl, fun _ _ => rfl, by simp [hwrite], fun h => absurd hinv.1 h,
      fun _ => rfl⟩
  · exact ⟨rfl, rfl, rfl, rfl, rfl, hother, by simp [hwrite], fun _ _ => hself,
      fun h => absurd (.inr hwrite) h⟩
  · exact ⟨rfl, rfl, rfl, rfl, rfl, fun _ _ => rfl, by simp [hasync, hwrite],
      fun _ h => absurd h (by simp [hasync, hwrite]), fun _ => rfl⟩

/-- The last kept tree of a node is cut in turn, unless it is empty or a single block. -/
def trimLast (fs : MExt2fs) (sub : Option Indirtrunc) (q c : ℕ) (s : Freeing) : Freeing :=
  match sub with
  | some f => if q ≠ 0 then s.call (f (fs.fsbtodb q) ((c : ℤ) - 1)) else s
  | none => s

theorem trimLast_spec (hsub : SubSpec fs env k sub) (hpos : 0 < c) (hc : c ≤ fs.nindir ^ k)
    (hs : Sep fs.nindir st k p) {s : Freeing} (hi : Intact fs st k p s.world) :
    Releases fs s.world (trimLast fs sub p c s).world (Mem fs.nindir st k p)
      (nums (Cut fs.nindir st k p c)) ((trimLast fs sub p c s).allerror = none)
      (CutEvent fs env st k p c s.world) ∧
    (trimLast fs sub p c s).world.ip = s.world.ip ∧
    ((trimLast fs sub p c s).allerror = none → s.allerror = none ∧ PathIo fs env st k p c) ∧
    (PathIo fs env st k p c →
      Trims fs.nindir st ((trimLast fs sub p c s).world.store fs) k p c) := by
  cases sub with
  | none =>
    obtain rfl : k = 0 := hsub
    refine ⟨.refl _ ?_, rfl, fun h => ⟨h, trivial⟩, fun _ => .leaf hpos⟩
    rintro _ n ⟨b, _, hb⟩
    have := hb.2.1
    omega
  | some f =>
    by_cases hp : p = 0
    · have hskip : trimLast fs (some f) p c s = s := if_neg (not_not.2 hp)
      rw [hskip, hp]
      obtain ⟨i, rfl⟩ := Nat.exists_eq_succ_of_ne_zero hsub.1.ne'
      refine ⟨.refl _ ?_, rfl, fun h => ⟨h, fun h => absurd rfl h⟩, fun _ => .null⟩
      rintro _ n ⟨b, _, hb⟩
      exact not_cut_null hb
    · have hcall : trimLast fs (some f) p c s = s.call (f (fs.fsbtodb p) ((c : ℤ) - 1)) := if_pos hp
      rw [hcall]
      have ht := hsub.2 st p c s.world hp hc hs hi
      refine ⟨ht.releases.mono (fun _ h => h) (fun n => ?_) (fun h => (laterError_eq_none.1 h).2)
        fun _ _ h => h, ht.ip, fun h => ⟨(laterError_eq_none.1 h).1, ?_⟩, ht.trims hpos⟩
      · exact exists_congr fun b => and_congr_right fun _ =>
          ⟨fun h => h.2, fun h => ⟨h.ne_root hs hpos, h⟩⟩
      · exact ht.path hpos (laterError_eq_none.1 h).2

/-- The body of `ext2_indirtrunc` in terms of the number of blocks it keeps. -/
theorem indirtruncBody_eq (p c : ℕ) (w : World) :
    indirtruncBody fs env (fs.nindir ^ k) sub (fs.fsbtodb p) ((c : ℤ) - 1) w =
      if env.read (fs.fsbtodb p) = false then ⟨some .eio, 0, w⟩
      else
        let kept := keptSlots fs.nindir k c
        let r := writeIndir env (fs.fsbtodb p) ((kept : ℤ) - 1) (w.store fs p) w
        let s := indirLoop fs env sub (w.store fs p) kept (fs.nindir - kept) ⟨r.1, 0, r.2⟩
        if c = 0 then s
        else trimLast fs sub (w.store fs p ((c - 1) / fs.nindir ^ k))
          (c - (c - 1) / fs.nindir ^ k * fs.nindir ^ k) s := by
  have hlast : (if (0 : ℤ) < (c : ℤ) - 1 then ((c : ℤ) - 1) / ((fs.nindir ^ k : ℕ) : ℤ)
      else (c : ℤ) - 1) = (keptSlots fs.nindir k c : ℤ) - 1 := by
    unfold keptSlots
    rcases Nat.eq_zero_or_pos c with rfl | hpos
    · simp
    · have hcast : (c : ℤ) - 1 = ((c - 1 : ℕ) : ℤ) := by omega
      rw [if_neg (Nat.pos_iff_ne_zero.1 hpos), hcast]
      split
      · push_cast
        ring
      · next h =>
        have h0 : c - 1 = 0 := by omega
        simp [h0]
  have hstore : w.dev (fs.fsbtodb p) = w.store fs p := rfl
  unfold indirtruncBody
  simp only [hlast, hstore]
  have hkept : ((keptSlots fs.nindir k c : ℤ) - 1 + 1).toNat = keptSlots fs.nindir k c := by
    omega
  rw [hkept]
  split
  · rfl
  · generalize indirLoop fs env sub (w.store fs p) (keptSlots fs.nindir k c) _ _ = s
    cases sub with
    | none => simp [trimLast]
    | some f =>
      rcases Nat.eq_zero_or_pos c with rfl | hpos
      · simp
      · have hslot : ((keptSlots fs.nindir k c : ℤ) - 1).toNat = (c - 1) / fs.nindir ^ k := by
          rw [keptSlots, if_neg (Nat.pos_iff_ne_zero.1 hpos)]
          generalize (c - 1) / fs.nindir ^ k = last
          omega
        have hmod : ((c : ℤ) - 1) % ((fs.nindir ^ k : ℕ) : ℤ)
            = ((c - (c - 1) / fs.nindir ^ k * fs.nindir ^ k : ℕ) : ℤ) - 1 := by
          have h1 := Nat.div_add_mod' (c - 1) (fs.nindir ^ k)
          have hcast : (c : ℤ) - 1 = ((c - 1 : ℕ) : ℤ) := by omega
          rw [hcast]
          have hrest : c - (c - 1) / fs.nindir ^ k * fs.nindir ^ k
              = (c - 1) % fs.nindir ^ k + 1 := by
            generalize (c - 1) / fs.nindir ^ k * fs.nindir ^ k = d at h1 ⊢
            generalize (c - 1) % fs.nindir ^ k = m at h1 ⊢
            omega
          rw [hrest]
          push_cast
          ring
        have hle : 0 ≤ (c : ℤ) - 1 := by omega
        simp only [hslot, hmod, hle, true_and, trimLast, if_neg (Nat.pos_iff_ne_zero.1 hpos)]

/-- After the write and the loop a block below a slot that goes, or cut from the last kept tree, is
no longer in the tree. -/
theorem not_mem_of_cut {st' : Store} {last b : ℕ} (hs : Sep fs.nindir st (k + 1) p) (hp : p ≠ 0)
    (hlast : last < fs.nindir) (hkeep : ∀ i ≤ last, st' p i = st p i)
    (hclear : ∀ i, last < i → st' p i = 0)
    (hbelow : ∀ i < last, ∀ x, Mem fs.nindir st k (st p i) x → st' x = st x)
    (hin : ∃ i < fs.nindir, last ≤ i ∧ Mem fs.nindir st k (st p i) b)
    (hout : ¬ Mem fs.nindir st' k (st p last) b) : ¬ Mem fs.nindir st' (k + 1) p b := by
  obtain ⟨j, hj, hlj, hbj⟩ := hin
  rintro ⟨_, rfl | ⟨i, hi, hb⟩⟩
  · exact hs.root_not_mem hp hj hbj
  · rcases lt_trichotomy i last with h | rfl | h
    · rw [hkeep i h.le] at hb
      exact hs.disjoint hp hi hj (by omega) ((mem_congr (hbelow i h)).1 hb) hbj
    · rw [hkeep i le_rfl] at hb
      exact hout hb
    · rw [hclear i h] at hb
      exact not_mem_null hb

theorem keptSlots_le (hc : c ≤ fs.nindir ^ (k + 1)) : keptSlots fs.nindir k c ≤ fs.nindir := by
  unfold keptSlots
  split
  · exact Nat.zero_le _
  · exact last_lt fs.nindir_pos (by omega) hc

/-- What the write and the loop change: the slots of the block that go, and the trees below them. -/
structure ClearedSlots (fs : MExt2fs) (env : TruncEnv) (st : Store) (k p kept : ℕ) (w w' : World)
    (ok : Prop) : Prop where
  releases : Releases fs w w' (Mem fs.nindir st (k + 1) p)
    (nums (BelowSlots fs st k (st p) kept (fs.nindir - kept))) ok
    (fun e => e.Within fs (Mem fs.nindir st (k + 1) p) w ∧ e.store fs p = w'.store fs p ∧
      ∀ x, x ≠ p → ¬ BelowSlots fs st k (st p) kept (fs.nindir - kept) x →
        e.store fs x = w.store fs x)
  other : ∀ x, x ≠ p → ¬ BelowSlots fs st k (st p) kept (fs.nindir - kept) x →
    w'.store fs x = w.store fs x
  ip : w'.ip = w.ip
  wrote : ok → env.async = true ∨ env.write (fs.fsbtodb p) = true
  self : 0 < kept → (env.async = true ∨ env.write (fs.fsbtodb p) = true) →
    w'.store fs p = fun i => if i < kept then st p i else 0
  lost : ¬ (env.async = true ∨ env.write (fs.fsbtodb p) = true) → w'.store fs p = st p

theorem clearedSlots (hsub : SubSpec fs env k sub) (hp : p ≠ 0) {kept : ℕ}
    (hkept : kept ≤ fs.nindir) (hs : Sep fs.nindir st (k + 1) p) (hi : Intact fs st (k + 1) p w)
    {r : Option Errno × World} (hw : WroteIndir fs env p ((kept : ℤ) - 1) (st p) w r) {s : Freeing}
    (hloop : s = indirLoop fs env sub (st p) kept (fs.nindir - kept) ⟨r.1, 0, r.2⟩) :
    ClearedSlots fs env st k p kept w s.world (s.allerror = none) := by
  have hN : kept + (fs.nindir - kept) = fs.nindir := by omega
  have hbelow : ∀ b, BelowSlots fs st k (st p) kept (fs.nindir - kept) b →
      Mem fs.nindir st (k + 1) p b ∧ b ≠ p := by
    rintro b ⟨i, _, hlt, hb⟩
    refine ⟨mem_of_child hp (by omega) hb, ?_⟩
    rintro rfl
    exact hs.root_not_mem hp (by omega) hb
  have hwrite : ∀ (ok : Prop) (evt : FreeEvent → Prop), Releases fs w r.2
      (Mem fs.nindir st (k + 1) p) (fun _ => False) ok evt := fun ok evt =>
    ⟨hw.image, hw.panicked, fun x hx => hw.other x (ne_root_of_not_mem hp hx),
      [], by simp [hw.freed], by simp, by simp, by simp, fun x _ => by rw [hw.avail]⟩
  have hch : ∀ i < fs.nindir, Sep fs.nindir st k (st p i) ∧ Intact fs st k (st p i) r.2 := by
    intro i hlt
    refine ⟨hs.child hp hlt, fun b hb => ?_, fun b hb => ?_⟩
    · rw [hw.other b fun h => hs.root_not_mem hp hlt (h ▸ hb)]
      exact hi.store b (mem_of_child hp hlt hb)
    · rw [hw.avail]
      exact hi.used b (mem_of_child hp hlt hb)
  have hdisj : ∀ i < kept + (fs.nindir - kept), ∀ j < kept + (fs.nindir - kept), i ≠ j → ∀ b,
      Mem fs.nindir st k (st p i) b → ¬ Mem fs.nindir st k (st p j) b := by
    rw [hN]
    exact fun i hlt j hlt' hij b hb => hs.disjoint hp hlt hlt' hij hb
  obtain ⟨hrel, hip, herr⟩ := indirLoop_spec hsub (fs.nindir - kept) ⟨r.1, 0, r.2⟩
    (fun i _ hlt => hch i (by omega)) hdisj
  rw [← hloop] at hrel hip herr
  have hself : s.world.store fs p = r.2.store fs p := hrel.frame p fun h => (hbelow p h).2 rfl
  refine ⟨?_, fun x hx hb => (hrel.frame x hb).trans (hw.other x hx), hip.trans hw.ip,
    fun h => hw.error.1 (herr h), fun hpos hok => ?_,
    fun hno => hself.trans ((hw.lost hno).trans (hi.store p (mem_root hp)))⟩
  · refine ((hwrite _ _).trans (hrel.mono (fun x hx => (hbelow x hx).1) (fun _ => Iff.rfl) id
      fun e _ he => ?_) fun _ h => absurd h id).mono (fun _ h => h) (fun n => ?_) id
      fun _ _ h => h
    · refine ⟨⟨he.1.trans hw.image, fun x hx => ?_⟩, ?_, fun x hx hb => ?_⟩
      · rw [he.2 x fun h => hx (hbelow x h).1, hw.other x (ne_root_of_not_mem hp hx)]
      · rw [he.2 p fun h => (hbelow p h).2 rfl, hself]
      · rw [he.2 x hb, hw.other x hx]
    · simp
  · rw [hself, hw.self (by omega) hok]
    funext i
    by_cases h : i < kept
    · rw [if_pos h, if_neg (by omega)]
    · rw [if_neg h, if_pos (by omega)]

section Node

variable {last c' : ℕ} {s r : Freeing}

/-- The kept trees are not touched by the write and the loop. -/
theorem ClearedSlots.kept {ok : Prop} (hclear : ClearedSlots fs env st k p (last + 1) w w' ok) (hp : p ≠ 0)
    (hi : Intact fs st (k + 1) p w) (hlast : last < fs.nindir)
    (hgone : ∀ i ≤ last, ∀ b, Mem fs.nindir st k (st p i) b → b ≠ p ∧
      ¬ BelowSlots fs st k (st p) (last + 1) (fs.nindir - (last + 1)) b) :
    ∀ i ≤ last, ∀ x, Mem fs.nindir st k (st p i) x → w'.store fs x = st x := by
  intro i hile x hx
  obtain ⟨hxp, hxb⟩ := hgone i hile x hx
  rw [hclear.other x hxp hxb]
  exact hi.store x (mem_of_child hp (by omega) hx)

/-- A block that the loop releases is no longer in the tree if the pointers are written. -/
theorem ClearedSlots.events {ok ok' : Prop} (hclear : ClearedSlots fs env st k p (last + 1) w w' ok)
    (hok : ok' → ok) (hp : p ≠ 0) (hs : Sep fs.nindir st (k + 1) p) (hi : Intact fs st (k + 1) p w)
    (hlast : last < fs.nindir)
    (hgone : ∀ i ≤ last, ∀ b, Mem fs.nindir st k (st p i) b → b ≠ p ∧
      ¬ BelowSlots fs st k (st p) (last + 1) (fs.nindir - (last + 1)) b) :
    Releases fs w w' (Mem fs.nindir st (k + 1) p)
      (nums (BelowSlots fs st k (st p) (last + 1) (fs.nindir - (last + 1)))) ok'
      (CutEvent fs env st (k + 1) p c w) := by
  refine hclear.releases.mono (fun _ h => h) (fun _ => Iff.rfl) hok fun e he hev => ?_
  refine ⟨hev.1, fun _ hwr b hb => ?_⟩
  have hpub := hclear.self (Nat.succ_pos last) (hwr.imp id fun h => h _)
  rw [hb] at he
  obtain ⟨j, hlo, hhi, hbj⟩ := nums_cast.1 he
  have hsame : ∀ i ≤ last, ∀ x, Mem fs.nindir st k (st p i) x → e.store fs x = st x := by
    intro i hile x hx
    obtain ⟨hxp, hxb⟩ := hgone i hile x hx
    rw [hev.2.2 x hxp hxb]
    exact hi.store x (mem_of_child hp (by omega) hx)
  refine not_mem_of_cut hs hp hlast (fun i hile => ?_) (fun i hlt => ?_)
    (fun i hil => hsame i hil.le) ⟨j, by omega, by omega, hbj⟩ fun hm => ?_
  · rw [hev.2.1, hpub]
    exact if_pos (by omega)
  · rw [hev.2.1, hpub]
    exact if_neg (by omega)
  · exact (hgone last le_rfl b ((mem_congr (hsame last le_rfl)).1 hm)).2 ⟨j, hlo, hhi, hbj⟩

/-- Nor is one that the cut of the last kept tree releases. -/
theorem ClearedSlots.below {ok ok' : Prop} (hclear : ClearedSlots fs env st k p (last + 1) w w' ok)
    (hp : p ≠ 0) (hpos' : 0 < c') (hs : Sep fs.nindir st (k + 1) p) (hlast : last < fs.nindir)
    (hkeep : ∀ i ≤ last, ∀ x, Mem fs.nindir st k (st p i) x → w'.store fs x = st x)
    {cut : ℤ → Prop} {evt : FreeEvent → Prop}
    (hbefore : Releases fs w w' (Mem fs.nindir st (k + 1) p) cut ok' evt) {w'' : World}
    (hrel : Releases fs w' w'' (Mem fs.nindir st k (st p last)) (nums (Cut fs.nindir st k (st p last) c'))
      ok' (CutEvent fs env st k (st p last) c' w')) :
    Releases fs w' w'' (Mem fs.nindir st (k + 1) p) (nums (Cut fs.nindir st k (st p last) c')) ok'
      (CutEvent fs env st (k + 1) p c w) := by
  have hchild : ∀ b, Mem fs.nindir st k (st p last) b → Mem fs.nindir st (k + 1) p b :=
    fun b hb => mem_of_child hp hlast hb
  have hpq : ¬ Mem fs.nindir st k (st p last) p := hs.root_not_mem hp hlast
  refine hrel.mono hchild (fun _ => Iff.rfl) id fun e he hev => ?_
  refine ⟨(hev.1.mono hchild).of_releases hbefore, fun _ hwr b hb => ?_⟩
  have hpub := hclear.self (Nat.succ_pos last) (hwr.imp id fun h => h _)
  rw [hb] at he
  refine not_mem_of_cut hs hp hlast (fun i hile => ?_) (fun i hlt => ?_)
    (fun i hil x hx => ?_) ⟨last, hlast, le_rfl, (nums_cast.1 he).mem⟩ ?_
  · rw [hev.1.2 p hpq, hpub]
    exact if_pos (by omega)
  · rw [hev.1.2 p hpq, hpub]
    exact if_neg (by omega)
  · have hout := hs.disjoint hp (by omega) hlast (by omega) hx
    rw [hev.1.2 x hout, hkeep i hil.le x hx]
  · exact hev.2 hpos' hwr b hb

/-- The slots of the block afterwards. -/
theorem ClearedSlots.slots {ok : Prop} (hclear : ClearedSlots fs env st k p (last + 1) w w' ok) (hp : p ≠ 0)
    (hl : (c - 1) / fs.nindir ^ k = last) (h : PathIo fs env st (k + 1) p c) {w'' : World}
    (hsame : w''.store fs p = w'.store fs p) :
    ∀ i < fs.nindir, w''.store fs p i = if i ≤ last then st p i else 0 := by
  intro i hlt
  rw [hsame]
  by_cases hwr : env.async = true ∨ env.write (fs.fsbtodb p) = true
  · rw [hclear.self (Nat.succ_pos last) hwr]
    exact if_congr Nat.lt_succ_iff rfl rfl
  · rw [hclear.lost hwr]
    split
    · rfl
    · next hgt =>
      rcases h hp with hno | ⟨_, hwr', _⟩
      · exact slot_eq_zero_of_no_cut fs.nindir_pos hp hno hlt (by omega)
      · exact absurd hwr' hwr

/-- A node from its parts: `s` is the state after the write and the loop, `r` the one after the last
kept tree was cut in turn. -/
theorem TrimSpec.node (hp : p ≠ 0) (hpos : 0 < c) (hpos' : 0 < c')
    (hs : Sep fs.nindir st (k + 1) p) (hi : Intact fs st (k + 1) p w)
    (hl : (c - 1) / fs.nindir ^ k = last) (hc' : c - last * fs.nindir ^ k = c')
    (hlast : last < fs.nindir)
    (hgone : ∀ i ≤ last, ∀ b, Mem fs.nindir st k (st p i) b → b ≠ p ∧
      ¬ BelowSlots fs st k (st p) (last + 1) (fs.nindir - (last + 1)) b)
    (hcut : ∀ b, (b ≠ p ∧ Cut fs.nindir st (k + 1) p c b) ↔
      BelowSlots fs st k (st p) (last + 1) (fs.nindir - (last + 1)) b ∨
        (0 < c ∧ Cut fs.nindir st k (st p last) c' b))
    (hclear : ClearedSlots fs env st k p (last + 1) w s.world (s.allerror = none))
    (hrel : Releases fs s.world r.world (Mem fs.nindir st k (st p last))
      (nums (Cut fs.nindir st k (st p last) c')) (r.allerror = none)
      (CutEvent fs env st k (st p last) c' s.world))
    (hip : r.world.ip = s.world.ip) (herr : r.allerror = none → s.allerror = none)
    (hpath : r.allerror = none → env.read (fs.fsbtodb p) = true ∧
      (env.async = true ∨ env.write (fs.fsbtodb p) = true) ∧
      PathIo fs env st k (st p last) c')
    (htrims : PathIo fs env st k (st p last) c' →
      Trims fs.nindir st (r.world.store fs) k (st p last) c') :
    TrimSpec fs env st (k + 1) p c w r := by
  have hkeep := hclear.kept hp hi hlast hgone
  have hbefore := hclear.events (c := c) herr hp hs hi hlast hgone
  have hbelow := hclear.below (c := c) hp hpos' hs hlast hkeep hbefore hrel
  refine ⟨(hbefore.trans hbelow ?_).mono (fun _ h => h) (fun n => ?_) id fun _ _ h => h,
    hip.trans hclear.ip, fun _ h _ => ?_, fun _ h => ?_⟩
  · rintro _ ⟨b, rfl, hb⟩ hb'
    exact (hgone last le_rfl b (nums_cast.1 hb').mem).2 hb
  · constructor
    · rintro (⟨b, rfl, hb⟩ | ⟨b, rfl, hb⟩)
      · exact ⟨b, rfl, (hcut b).2 (.inl hb)⟩
      · exact ⟨b, rfl, (hcut b).2 (.inr ⟨hpos, hb⟩)⟩
    · rintro ⟨b, rfl, hb⟩
      exact ((hcut b).1 hb).imp (fun h => ⟨b, rfl, h⟩) fun h => ⟨b, rfl, h.2⟩
  · rw [hl, hc']
    exact .inr (hpath h)
  · have hrest : PathIo fs env st k (st p last) c' := by
      rcases h hp with hno | ⟨_, _, hrest⟩
      · exact .of_no_cut (hc' ▸ child_no_cut hp hno hlast)
      · rwa [hl, hc'] at hrest
    have hslots := hclear.slots hp hl h (hrel.frame p (hs.root_not_mem hp hlast))
    refine .node fs.nindir_pos hp hpos hs hl.symm (fun i hile => ?_) (fun i hi hlt => ?_)
      (fun i hil x hx => ?_) (hc' ▸ htrims hrest)
    · rw [hslots i (by omega), if_pos hile]
    · rw [hslots i hi, if_neg (by omega)]
    · have hout := hs.disjoint hp (by omega) hlast (by omega) hx
      rw [hrel.frame x hout, hkeep i hil.le x hx]

end Node

/-- **One level of `ext2_indirtrunc`**, given the level below. -/
theorem indirtruncBody_spec (hsub : SubSpec fs env k sub) (hp : p ≠ 0)
    (hc : c ≤ fs.nindir ^ (k + 1)) (hs : Sep fs.nindir st (k + 1) p)
    (hi : Intact fs st (k + 1) p w) :
    TrimSpec fs env st (k + 1) p c w
      (indirtruncBody fs env (fs.nindir ^ k) sub (fs.fsbtodb p) ((c : ℤ) - 1) w) := by
  have hN := fs.nindir_pos
  have hroot : w.store fs p = st p := hi.store p (mem_root hp)
  have hcut := cut_iff_belowSlots hp hs hc
  rw [indirtruncBody_eq, hroot]
  split
  · next hread =>
    refine ⟨.refl w ?_, rfl, ?_, ?_⟩
    · intro h
      simp at h
    · intro _ h
      simp at h
    · intro _ hpath
      rcases hpath hp with hno | ⟨hok, _⟩
      · exact .of_no_cut hN hno hs hi.store
      · rw [hread] at hok
        exact absurd hok (by decide)
  · next hread =>
    simp only
    have hw := writeIndir_spec fs env p ((keptSlots fs.nindir k c : ℤ) - 1) (st p) w
    generalize writeIndir env (fs.fsbtodb p) ((keptSlots fs.nindir k c : ℤ) - 1) (st p) w = r
      at hw ⊢
    generalize hloop : indirLoop fs env sub (st p) (keptSlots fs.nindir k c)
      (fs.nindir - keptSlots fs.nindir k c) ⟨r.1, 0, r.2⟩ = s
    have hclear := clearedSlots hsub hp (keptSlots_le hc) hs hi hw hloop.symm
    rcases Nat.eq_zero_or_pos c with rfl | hpos
    · rw [if_pos rfl]
      refine ⟨hclear.releases.mono (fun _ h => h) (fun n => ?_) id fun e _ he => ⟨he.1, ?_⟩,
        hclear.ip, fun h => absurd h (lt_irrefl 0), fun h => absurd h (lt_irrefl 0)⟩
      · exact exists_congr fun b => and_congr_right fun _ => ((hcut b).trans (by simp)).symm
      · exact fun h => absurd h (lt_irrefl 0)
    · rw [if_neg (Nat.pos_iff_ne_zero.1 hpos)]
      have hlast := last_lt hN hpos hc
      have hkept : keptSlots fs.nindir k c = (c - 1) / fs.nindir ^ k + 1 :=
        if_neg (Nat.pos_iff_ne_zero.1 hpos)
      rw [hkept] at hclear hcut
      generalize hl : (c - 1) / fs.nindir ^ k = last at hclear hcut hlast ⊢
      generalize hc' : c - last * fs.nindir ^ k = c' at hcut ⊢
      have hpos' : 0 < c' := by
        rw [← hc', ← hl]
        exact sub_last_pos hpos
      have hle' : c' ≤ fs.nindir ^ k := by
        rw [← hc', ← hl]
        exact sub_last_le hN
      have hgone : ∀ i ≤ last, ∀ b, Mem fs.nindir st k (st p i) b → b ≠ p ∧
          ¬ BelowSlots fs st k (st p) (last + 1) (fs.nindir - (last + 1)) b := by
        intro i hile b hb
        refine ⟨?_, ?_⟩
        · rintro rfl
          exact hs.root_not_mem hp (by omega) hb
        · rintro ⟨j, hlo, hhi, hbj⟩
          exact hs.disjoint hp (by omega) (by omega) (by omega) hb hbj
      have hi' : Intact fs st k (st p last) s.world := by
        refine ⟨fun b hb => ?_, fun b hb => ?_⟩
        · obtain ⟨hbp, hbb⟩ := hgone last le_rfl b hb
          rw [hclear.other b hbp hbb]
          exact hi.store b (mem_of_child hp hlast hb)
        · rw [hclear.releases.avail_eq, hi.used b (mem_of_child hp hlast hb)]
          rw [nums_cast]
          exact (hgone last le_rfl b hb).2
      obtain ⟨hrel, hip, herr, htrims⟩ := trimLast_spec hsub hpos' hle' (hs.child hp hlast) hi'
      generalize trimLast fs sub (st p last) c' s = r' at hrel hip herr htrims
      refine .node hp hpos hpos' hs hi hl hc' hlast hgone hcut hclear hrel hip ?_ ?_ ?_
      · exact fun h => (herr h).1
      · exact fun h => ⟨by simpa using hread, hclear.wrote (herr h).1, (herr h).2⟩
      · exact htrims

/-- **`ext2_indirtrunc`**, for a tree of height `level + 1`. -/
theorem ext2Indirtrunc_spec (fs : MExt2fs) (env : TruncEnv) (level : ℕ) :
    SubSpec fs env (level + 1) (some (ext2Indirtrunc fs env level)) := by
  induction level with
  | zero =>
    have hsub : SubSpec fs env 0 none := rfl
    refine ⟨Nat.succ_pos 0, fun st p c w hp hc hs hi => ?_⟩
    have h := indirtruncBody_spec hsub hp hc hs hi
    rwa [pow_zero] at h
  | succ level ih =>
    exact ⟨Nat.succ_pos _, fun st p c w hp hc hs hi => indirtruncBody_spec ih hp hc hs hi⟩

end

end Ext2fs
