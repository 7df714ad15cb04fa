import Ext2fs.MetaBuf

/-!
# Runs of stores and reads of metadata

A read of a logical block should return what was stored to it last.

* `fileAddr_eq` — where the buffer layer finds a block of a block-mapped inode;
* `MetaInv` — the invariant of a run;
* `MetaOp.step_inv` — every step keeps it;
* `meta_runs` — **which runs read back what was stored**.
-/

namespace Ext2fs

open BufCache BufCache.Cache PtrTree Runs

variable {fs : MExt2fs} {w : World} {lbn : ℕ} {read : ℤ → Bool}

/-! ### The address of a block -/

/-- No direct pointer loses bits in the 32-bit shift of `ext2_bmaparray`. -/
def World.DirectFits (fs : MExt2fs) (w : World) : Prop :=
  ∀ i < 12, w.ip.db i * 2 ^ fs.bptrtodb < 2 ^ 32

/-- The device address of a logical block of a block-mapped inode, none for a hole. -/
def World.addrOf (fs : MExt2fs) (w : World) (lbn : ℕ) : Option ℤ :=
  if w.map fs lbn = 0 then none else some (fs.fsbtodb (w.map fs lbn))

theorem fileAddr_all (lbn : ℕ) (hfits : w.DirectFits fs) :
    BmapCorrect fs (w.bread fun _ => true) (w.store fs) w.ip none lbn := by
  by_cases h12 : lbn < 12
  · exact (bmapCorrect_direct h12).2 (hfits lbn h12)
  · exact bmapCorrect_indirect none (by omega) fun _ _ _ _ => rfl

/-- The buffer layer finds the block where the block map has it, if it can read the pointers. -/
theorem fileAddr_eq (hfits : w.DirectFits fs) {addr : Option ℤ}
    (h : fileAddr fs read w lbn = .ok addr) : addr = w.addrOf fs lbn := by
  have hall := fileAddr_all lbn hfits
  unfold fileAddr at h
  cases hbmap : ext2Bmaparray fs (w.bread read) w.ip none lbn with
  | error e => rw [hbmap] at h; exact absurd h (by simp [Except.map])
  | ok r =>
    rw [hbmap] at h
    simp only [Except.map, Except.ok.injEq] at h
    have hle : ∀ a bap, w.bread read a = .ok bap → w.bread (fun _ => true) a = .ok bap := by
      intro a bap ha
      unfold World.bread at ha ⊢
      split at ha
      · exact ha
      · exact absurd ha (by simp)
    rw [BmapCorrect, ext2Bmaparray_mono hle hbmap] at hall
    unfold World.addrOf World.map
    split at hall
    · simp only [Except.map, Except.ok.injEq] at hall
      rw [← h, hall]
      split
      · next hzero => rfl
      · next hne => rw [if_neg (fs.fsbtodb_ne_neg_one _)]
    · exact absurd hall (by simp)

/-- A mapped block has an address when every block of pointers can be read. -/
theorem fileAddr_of_ne (hfits : w.DirectFits fs) (hne : w.map fs lbn ≠ 0) :
    fileAddr fs (fun _ => true) w lbn = .ok (some (fs.fsbtodb (w.map fs lbn))) := by
  have hall := fileAddr_all lbn hfits
  unfold BmapCorrect at hall
  have hlt : lbn < 12 + fs.nindir + fs.nindir ^ 2 + fs.nindir ^ 3 := by
    by_contra hge
    exact hne (blockMap_of_none (locate_eq_none.2 (by omega)))
  have hne' : blockMap fs.nindir (w.store fs) w.ip lbn ≠ 0 := hne
  rw [if_pos hlt, if_neg hne'] at hall
  unfold fileAddr
  cases hbmap : ext2Bmaparray fs (w.bread fun _ => true) w.ip none lbn with
  | error e => rw [hbmap] at hall; exact absurd hall (by simp [Except.map])
  | ok r =>
    rw [hbmap] at hall
    simp only [Except.map, Except.ok.injEq] at hall ⊢
    rw [hall, if_neg (fs.fsbtodb_ne_neg_one _)]
    rfl

theorem addrOf_of_ne (hne : w.map fs lbn ≠ 0) :
    w.addrOf fs lbn = some (fs.fsbtodb (w.map fs lbn)) := if_neg hne

theorem addrOf_eq_some {a : ℤ} :
    w.addrOf fs lbn = some a ↔ w.map fs lbn ≠ 0 ∧ a = fs.fsbtodb (w.map fs lbn) := by
  unfold World.addrOf
  split
  · next hzero => simp [hzero]
  · next hne => simp [hne, eq_comm]

/-! ### The invariant -/

section

variable {D : Type}

variable {s : MetaState D} {b : Buf BufKey ℤ D} {c' : Cache BufKey ℤ D} {a : ℤ} {d : D}

theorem at_mapped (hext : s.extents = false) :
    s.At fs lbn a ↔ s.w.map fs lbn ≠ 0 ∧ a = fs.fsbtodb (s.w.map fs lbn) := by
  unfold MetaState.At
  simp [hext]

theorem at_mapped_inj (hext : s.extents = false) (hs : s.w.Sound fs) (l l' : ℕ) (a : ℤ)
    (h : s.At fs l a) (h' : s.At fs l' a) : l' = l := by
  obtain ⟨hne, rfl⟩ := (at_mapped hext).1 h
  obtain ⟨_, heq⟩ := (at_mapped hext).1 h'
  rw [MExt2fs.fsbtodb_inj, Nat.cast_inj] at heq
  exact blockMap_inj fs.nindir_pos hs.shaped hne heq.symm

theorem at_mapped_func (hext : s.extents = false) (l : ℕ) (a a' : ℤ) (h : s.At fs l a)
    (h' : s.At fs l a') : a' = a := by
  rw [((at_mapped hext).1 h').2, ((at_mapped hext).1 h).2]

theorem giveBuf_bufs (sync : Bool) (r : Buf BufKey ℤ D × Cache BufKey ℤ D) (data : D) :
    ∃ dirty, (giveBuf sync r data).bufs = { r.1 with data := data, dirty := dirty } :: r.2.bufs := by
  unfold giveBuf
  split
  · exact ⟨false, rfl⟩
  · exact ⟨true, rfl⟩

/-- **A store through the buffer of an address** keeps the cache coherent. -/
theorem coherent_store {At' : ℕ → ℤ → Prop} (hd : s.cache.Distinct) (htaken : Taken s.cache c' a)
    (haddr : b.addr = some a) (sync : Bool) (hself : ∀ a', At' lbn a' → a' = a)
    (hother : ∀ l a', l ≠ lbn → At' l a' → a' ≠ a ∧ s.cache.Shows a' (s.last l)) :
    (giveBuf sync (b, c') d).Coherent At' (Function.update s.last lbn d) := by
  have hlast : ∀ l a', At' l a' → a' = a ∧ Function.update s.last lbn d l = d ∨
      a' ≠ a ∧ s.cache.Shows a' (Function.update s.last lbn d l) := by
    intro l a' hat
    by_cases hl : l = lbn
    · subst hl
      exact .inl ⟨hself a' hat, Function.update_self ..⟩
    · rw [Function.update_of_ne hl]
      exact .inr (hother l a' hl hat)
  unfold giveBuf
  split
  · exact htaken.coherent_written (b := { b with data := d }) hd haddr hlast
  · exact htaken.coherent_delayed (b := { b with data := d }) hd haddr hlast

variable [Zero D]

/-- The buffers of a block-mapped inode belong to its vnode, one for each logical block, and are where
the block map has the block. -/
structure MappedInv (fs : MExt2fs) (s : MetaState D) : Prop where
  sound : s.w.Sound fs
  fits : s.w.DirectFits fs
  keyed : ∀ b ∈ s.cache.bufs, ∃ l : ℕ, b.key = (Vnode.file, (l : ℤ)) ∧
    b.addr = s.w.addrOf fs l ∧ (b.addr = none → b.data = 0)
  nodup : (s.cache.bufs.map Buf.key).Nodup
  holes : ∀ l, s.w.map fs l = 0 → s.last l = 0

/-- What holds in every state of a run. -/
structure MetaInv (fs : MExt2fs) (s : MetaState D) : Prop where
  coherent : s.cache.Coherent (s.At fs) s.last
  inj : ∀ l l' a, s.At fs l a → s.At fs l' a → l' = l
  func : ∀ l a a', s.At fs l a → s.At fs l a' → a' = a
  mapped : s.extents = false → MappedInv fs s

/-- The buffer of a mapped block is the only one of its disk block. -/
theorem MappedInv.sole (h : MappedInv fs s) (hne : s.w.map fs lbn ≠ 0) :
    s.cache.Sole (Vnode.file, (lbn : ℤ)) (fs.fsbtodb (s.w.map fs lbn)) := by
  intro b hb
  obtain ⟨l, hkey, haddr, _⟩ := h.keyed b hb
  constructor
  · intro hk
    rw [hkey, Prod.mk.injEq, Nat.cast_inj] at hk
    rw [haddr, hk.2, addrOf_of_ne hne]
  · intro ha
    rw [haddr, addrOf_eq_some] at ha
    have heq : s.w.map fs lbn = s.w.map fs l := by
      have := ha.2
      rwa [MExt2fs.fsbtodb_inj, Nat.cast_inj] at this
    rw [hkey, blockMap_inj fs.nindir_pos h.sound.shaped hne heq.symm]

/-- A buffer of a hole has no address and is clear. -/
theorem MappedInv.hole (h : MappedInv fs s) (hzero : s.w.map fs lbn = 0) :
    ∀ x ∈ s.cache.bufs, x.key = (Vnode.file, (lbn : ℤ)) → x.addr = none ∧ x.data = 0 := by
  intro x hx hk
  obtain ⟨l, hkey, haddr, hdata⟩ := h.keyed x hx
  rw [hkey, Prod.mk.injEq, Nat.cast_inj] at hk
  have hnone : x.addr = none := by
    rw [haddr, hk.2, World.addrOf, if_pos hzero]
  exact ⟨hnone, hdata hnone⟩

/-- The same, where the addresses have not changed. -/
theorem MetaInv.store (h : MetaInv fs s) (hat : s.At fs lbn a) (htaken : Taken s.cache c' a)
    (haddr : b.addr = some a) (sync : Bool) :
    (giveBuf sync (b, c') d).Coherent (s.At fs) (Function.update s.last lbn d) := by
  refine coherent_store h.coherent.distinct htaken haddr sync (fun a' hat' => h.func _ _ _ hat hat')
    fun l a' hl hat' => ⟨?_, h.coherent.shows l a' hat'⟩
  rintro rfl
  exact hl (h.inj _ _ _ hat hat')

/-- A read gives the buffer back as it was. -/
theorem MetaInv.readBack (h : MetaInv fs s) (hat : s.At fs lbn a) (htaken : Taken s.cache c' a)
    (haddr : b.addr = some a) (hdata : b.data = s.last lbn)
    (hclean : b.dirty = false → s.cache.disk a = s.last lbn) :
    (c'.give b).Coherent (s.At fs) s.last := by
  refine htaken.coherent h.coherent.distinct haddr (fun hb => (hclean hb).trans hdata.symm)
    fun l a' hat' => ?_
  by_cases hl : l = lbn
  · subst hl
    exact .inl ⟨h.func _ _ _ hat hat', hdata.symm⟩
  · refine .inr ⟨?_, h.coherent.shows l a' hat'⟩
    rintro rfl
    exact hl (h.inj _ _ _ hat hat')

/-- A buffer that is given back to a block-mapped inode. -/
theorem MappedInv.give {s' : MetaState D} {miss : Option (Option ℤ × D)} (h : MappedInv fs s)
    (hget : s.cache.get (Vnode.file, (lbn : ℤ)) miss = some (b, c')) {b' : Buf BufKey ℤ D}
    (hkey : b'.key = b.key) (hbufs : s'.cache.bufs = b' :: c'.bufs) (hsound : s'.w.Sound fs)
    (hfits : s'.w.DirectFits fs) (haddr : b'.addr = s'.w.addrOf fs lbn)
    (hdata : b'.addr = none → b'.data = 0)
    (hmap : ∀ l, l ≠ lbn → s'.w.map fs l = s.w.map fs l)
    (hholes : ∀ l, s'.w.map fs l = 0 → s'.last l = 0) : MappedInv fs s' := by
  have hkey' : b'.key = (Vnode.file, (lbn : ℤ)) := hkey.trans (get_key hget)
  have hnodup := get_nodup h.nodup hget
  refine ⟨hsound, hfits, fun x hx => ?_, ?_, hholes⟩
  · rw [hbufs, List.mem_cons] at hx
    rcases hx with rfl | hx
    · exact ⟨lbn, hkey', haddr, hdata⟩
    · obtain ⟨l, hk, ha, hd⟩ := h.keyed x ((get_sublist hget).subset hx)
      have hl : l ≠ lbn := by
        rintro rfl
        exact (List.nodup_cons.1 hnodup).1 (List.mem_map.2 ⟨x, hx, hk⟩)
      refine ⟨l, hk, ?_, hd⟩
      rw [ha]
      unfold World.addrOf
      rw [hmap l hl]
  · rw [hbufs, List.map_cons, hkey']
    exact hnodup

/-! ### The buffers of a block-mapped inode -/

/-- A call of `ext2_balloc` after which every block is where it was. -/
theorem MetaInv.setW (h : MetaInv fs s) (hext : s.extents = false) {w' : World}
    (hsound : w'.Sound fs) (hfits : w'.DirectFits fs)
    (hmap : ∀ l, w'.map fs l = s.w.map fs l) : MetaInv fs { s with w := w' } := by
  have hat : ({ s with w := w' } : MetaState D).At fs = s.At fs := by
    funext l a
    refine propext ((at_mapped (s := { s with w := w' }) hext).trans ?_)
    rw [at_mapped hext, hmap]
  have hm := h.mapped hext
  refine ⟨?_, ?_, ?_, fun _ => ?_⟩
  · rw [hat]
    exact h.coherent
  · rw [hat]
    exact h.inj
  · rw [hat]
    exact h.func
  · refine ⟨hsound, hfits, fun b hb => ?_, hm.nodup, fun l hl => hm.holes l ((hmap l).symm.trans hl)⟩
    obtain ⟨l, hkey, haddr, hdata⟩ := hm.keyed b hb
    refine ⟨l, hkey, ?_, hdata⟩
    rw [haddr]
    unfold World.addrOf
    rw [hmap l]

/-- A store through the buffer of a mapped block. -/
theorem MetaInv.mappedStore {miss : Option (Option ℤ × D)} (h : MetaInv fs s)
    (hext : s.extents = false) (hne : s.w.map fs lbn ≠ 0)
    (hget : s.cache.get (Vnode.file, (lbn : ℤ)) miss = some (b, c'))
    (hmiss : ∀ m, miss = some m → m.1 = some (fs.fsbtodb (s.w.map fs lbn))) (sync : Bool) (d : D) :
    MetaInv fs
      { s with cache := giveBuf sync (b, c') d, last := Function.update s.last lbn d } := by
  have hm := h.mapped hext
  obtain ⟨htaken, haddr⟩ := get_sole h.coherent.distinct (hm.sole hne) hmiss hget
  have hat : s.At fs lbn (fs.fsbtodb (s.w.map fs lbn)) := (at_mapped hext).2 ⟨hne, rfl⟩
  refine ⟨h.store hat htaken haddr sync, h.inj, h.func, fun _ => ?_⟩
  obtain ⟨dirty, hbufs⟩ := giveBuf_bufs sync (b, c') d
  have hkey : ({ b with data := d, dirty := dirty } : Buf BufKey ℤ D).key = b.key := rfl
  refine hm.give hget hkey hbufs hm.sound hm.fits (haddr.trans (addrOf_of_ne hne).symm) ?_
    (fun _ _ => rfl) fun l hl => ?_
  · intro hnone
    exact absurd (haddr.symm.trans hnone) (by simp)
  · have hlne : l ≠ lbn := by
      rintro rfl
      exact hne hl
    exact (Function.update_of_ne hlne _ _).trans (hm.holes l hl)

/-- A read of a logical block, which may be a hole. -/
theorem MetaInv.mappedRead (h : MetaInv fs s) (hext : s.extents = false)
    (hget : s.cache.get (Vnode.file, (lbn : ℤ))
      (missRead read s.cache (fileAddr fs read s.w lbn)) = some (b, c')) :
    MetaInv fs { s with cache := c'.give b } ∧ b.data = s.last lbn := by
  have hm := h.mapped hext
  have hmiss : ∀ m, missRead read s.cache (fileAddr fs read s.w lbn) = some m →
      m.1 = s.w.addrOf fs lbn ∧
        ∀ a, s.w.addrOf fs lbn = some a → m = (some a, s.cache.disk a) := by
    intro m hmm
    cases haddr : fileAddr fs read s.w lbn with
    | error e => simp [haddr, missRead] at hmm
    | ok addr =>
      have hof := fileAddr_eq hm.fits haddr
      rw [haddr] at hmm
      rw [← hof]
      cases addr with
      | none =>
        simp only [missRead, Option.some.injEq] at hmm
        exact ⟨by rw [← hmm], fun a ha => absurd ha (by simp)⟩
      | some a =>
        simp only [missRead] at hmm
        split at hmm
        · simp only [Option.some.injEq] at hmm
          refine ⟨by rw [← hmm], fun a' ha => ?_⟩
          obtain rfl := Option.some.inj ha
          exact hmm.symm
        · simp at hmm
  by_cases hzero : s.w.map fs lbn = 0
  · -- a hole: the buffer is clear, and has no address
    have hnone : s.w.addrOf fs lbn = none := if_pos hzero
    have hb : b.addr = none ∧ b.data = 0 := by
      rcases get_cases hget with ⟨l, r, hc, -, -, hkey, -⟩ | ⟨-, -, m, hmm, rfl⟩
      · exact hm.hole hzero b (by simp [hc]) hkey
      · refine ⟨(hmiss m hmm).1.trans hnone, ?_⟩
        cases haddr : fileAddr fs read s.w lbn with
        | error e => simp [haddr, missRead] at hmm
        | ok addr =>
          obtain rfl : addr = none := (fileAddr_eq hm.fits haddr).trans hnone
          simp only [haddr, missRead, Option.some.injEq] at hmm
          rw [← hmm]
    refine ⟨⟨h.coherent.reget_hole hget hb.1, h.inj, h.func, fun _ => ?_⟩,
      hb.2.trans (hm.holes lbn hzero).symm⟩
    exact hm.give hget rfl rfl hm.sound hm.fits (hb.1.trans hnone.symm) (fun _ => hb.2)
      (fun _ _ => rfl) hm.holes
  · have hof := addrOf_of_ne hzero
    have hat : s.At fs lbn (fs.fsbtodb (s.w.map fs lbn)) := (at_mapped hext).2 ⟨hzero, rfl⟩
    have hsole := hm.sole hzero
    obtain ⟨htaken, haddr⟩ := get_sole h.coherent.distinct hsole
      (fun m hmm => (hmiss m hmm).1.trans hof) hget
    obtain ⟨hdata, hclean⟩ := get_shown h.coherent.distinct hsole (h.coherent.shows _ _ hat)
      (fun m hmm => (hmiss m hmm).2 _ hof) hget
    refine ⟨⟨h.readBack hat htaken haddr hdata hclean, h.inj, h.func, fun _ => ?_⟩, hdata⟩
    exact hm.give hget rfl rfl hm.sound hm.fits (haddr.trans hof.symm)
      (fun hnone => absurd (haddr.symm.trans hnone) (by simp)) (fun _ _ => rfl) hm.holes

/-- A store through the buffer of a new block: no buffer has its address. -/
theorem MetaInv.newStore {miss : Option (Option ℤ × D)} {b₁ : Buf BufKey ℤ D} {w' : World}
    (h : MetaInv fs s) (hext : s.extents = false) (hsound : w'.Sound fs) (hfits : w'.DirectFits fs)
    (hzero : s.w.map fs lbn = 0) (hnew : w'.map fs lbn ≠ 0)
    (hfree : s.w.avail (w'.map fs lbn) = true) (hother : ∀ l, l ≠ lbn → w'.map fs l = s.w.map fs l)
    (hget : s.cache.get (Vnode.file, (lbn : ℤ)) miss = some (b, c')) (hkey : b₁.key = b.key)
    (haddr : b₁.addr = some (fs.fsbtodb (w'.map fs lbn))) (sync : Bool) (d : D) :
    MetaInv fs { s with
      w := w'
      cache := giveBuf sync (b₁, c') d
      last := Function.update s.last lbn d } := by
  have hm := h.mapped hext
  -- the new block is not one of those that are mapped
  have hnever : ∀ l, s.w.addrOf fs l ≠ some (fs.fsbtodb (w'.map fs lbn)) := by
    intro l hl
    obtain ⟨hne, heq⟩ := addrOf_eq_some.1 hl
    rw [MExt2fs.fsbtodb_inj, Nat.cast_inj] at heq
    have hused : s.w.avail (s.w.map fs l) = false :=
      hm.sound.used _ (blockMap_owns fs.nindir_pos hne)
    rw [heq, hused] at hfree
    exact absurd hfree (by decide)
  have hno : ∀ x ∈ s.cache.bufs, x.addr ≠ some (fs.fsbtodb (w'.map fs lbn)) := by
    intro x hx
    obtain ⟨l, -, hxa, -⟩ := hm.keyed x hx
    rw [hxa]
    exact hnever l
  have htaken := get_fresh hno (fun x hx hk => (hm.hole hzero x hx hk).1) hget
  set s' : MetaState D := { s with
    w := w'
    cache := giveBuf sync (b₁, c') d
    last := Function.update s.last lbn d } with hs'
  have hext' : s'.extents = false := hext
  refine ⟨?_, at_mapped_inj hext' hsound, at_mapped_func hext', fun _ => ?_⟩
  · refine coherent_store h.coherent.distinct htaken haddr sync
      (fun a' hat => ((at_mapped hext').1 hat).2) fun l a' hl hat => ?_
    obtain ⟨hne, rfl⟩ := (at_mapped hext').1 hat
    have hsame : s'.w.map fs l = s.w.map fs l := hother l hl
    rw [hsame] at hne ⊢
    refine ⟨fun heq => hnever l ?_, h.coherent.shows l _ ((at_mapped hext).2 ⟨hne, rfl⟩)⟩
    rw [addrOf_of_ne hne, heq]
  · obtain ⟨dirty, hbufs⟩ := giveBuf_bufs sync (b₁, c') d
    have hkey' : ({ b₁ with data := d, dirty := dirty } : Buf BufKey ℤ D).key = b.key := hkey
    refine hm.give hget hkey' hbufs hsound hfits (haddr.trans (addrOf_of_ne hnew).symm) ?_ hother
      fun l hl => ?_
    · intro hnone
      exact absurd (haddr.symm.trans hnone) (by simp)
    · have hlne : l ≠ lbn := by
        rintro rfl
        exact hnew hl
      exact (Function.update_of_ne hlne _ _).trans (hm.holes l ((hother l hlne).symm.trans hl))

end

/-! ### The direct pointers -/

/-- The allocator picks no block for a direct pointer that the shift in `ext2_bmaparray` loses bits
of. -/
def BallocEnv.Fits (fs : MExt2fs) (env : BallocEnv) (lbn : ℕ) : Prop :=
  lbn < 12 → ∀ pref b, env.alloc 0 pref = some b → b * 2 ^ fs.bptrtodb < 2 ^ 32

theorem ballocDirect_fits {env : BallocEnv} {size : ℕ} (hlt : lbn < 12) (henv : env.Fits fs lbn)
    (hfits : w.DirectFits fs) : (ballocDirect fs env lbn size w).2.DirectFits fs := by
  simp only [ballocDirect]
  split
  · exact hfits
  split
  · split
    · split
      · exact hfits
      · exact hfits
    · exact hfits
  split
  · intro i hi
    rw [World.lostBit_ip]
    exact hfits i hi
  · next newb w₁ htake =>
    have htook := World.takeBlock_spec htake
    have hnewb := henv hlt _ newb ((takeBlock_canTake htake).1)
    have hset : ∀ x, x * 2 ^ fs.bptrtodb < 2 ^ 32 → ∀ v : World, v.ip.db = w.ip.db →
        (v.setDb lbn x).DirectFits fs := by
      intro x hx v hv i hi
      simp only [World.setDb, hv]
      split
      · exact hx
      · exact hfits i hi
    rw [htook.u32]
    split
    · intro i hi
      simp only [World.blkfree_ip, World.setDb]
      split
      · simp
      · rw [htook.db]
        exact hfits i hi
    · exact hset newb hnewb w₁ htook.db

theorem ext2Balloc_fits {env : BallocEnv} (sync : Bool) (size : ℕ) (hs : w.Sound fs)
    (henv : env.Fits fs lbn) (hfits : w.DirectFits fs) :
    (ext2Balloc fs env sync lbn size w).2.DirectFits fs := by
  by_cases hlt : lbn < 12
  · have hbump : (w.bumpNextAlloc lbn).DirectFits fs := by
      unfold World.bumpNextAlloc
      split
      · exact hfits
      · exact hfits
    unfold ext2Balloc
    rw [if_neg (by omega), if_pos (by unfold NDADDR; omega), Int.toNat_natCast]
    exact ballocDirect_fits hlt henv hbump
  · intro i hi
    have hsame := (ext2Balloc_spec env sync lbn size hs).grows.map_ne i (by omega)
    have hdb : (ext2Balloc fs env sync lbn size w).2.ip.db i = w.ip.db i :=
      (map_direct fs hi _).symm.trans (hsame.trans (map_direct fs hi w))
    rw [hdb]
    exact hfits i hi

/-! ### One step -/

section

variable {D : Type} {s : MetaState D} {b : Buf BufKey ℤ D} {c' : Cache BufKey ℤ D}

/-- A buffer of a hole gets the address of the new block. -/
theorem atAddr_addr {addr : Except Errno (Option ℤ)} {a : ℤ} (haddr : addr = .ok (some a))
    (hb : b.addr = none ∨ b.addr = some a) :
    (atAddr addr b).addr = some a ∧ (atAddr addr b).key = b.key ∧
      (atAddr addr b).data = b.data := by
  unfold atAddr
  rcases hb with hb | hb
  · simp [hb, haddr]
  · simp [hb, haddr]

/-- What the callers of `ext2_balloc` store does not depend on a buffer that they did not have
cleared. -/
theorem Fill.apply_whole {fill : Fill D} (h : fill.clrbuf = false) (x y : D) :
    fill.apply x = fill.apply y := by
  cases fill with
  | whole d => rfl
  | part f => exact absurd h (by simp [Fill.clrbuf])

variable [Zero D]

/-- The search finds no extent, and no buffer of the file is there in its place. -/
def MetaState.NoExtent (fs : MExt2fs) (read : ℤ → Bool) (s : MetaState D) (lbn : ℕ) : Prop :=
  (∀ header ep, ext4ExtFindExtent fs read s.w lbn ≠ some ⟨header, some ep⟩) ∧
    ∀ b ∈ s.cache.bufs, b.key ≠ (Vnode.file, (lbn : ℤ))

/-- `ext2_blkatoff` finds the disk block of an extent, and its buffer there is the only one. -/
def MetaState.DevSole (fs : MExt2fs) (read : ℤ → Bool) (s : MetaState D) (lbn : ℕ) : Prop :=
  s.w.ExtWf fs read ∧ ∃ p : ℕ, s.w.ExtMaps fs lbn p ∧
    s.cache.Sole (Vnode.dev, fs.fsbtodb p) (fs.fsbtodb p)

/-- The condition of a call of `ext2_blkatoff`. -/
def MetaState.AtoffClean (fs : MExt2fs) (read : ℤ → Bool) (s : MetaState D) (lbn : ℕ) : Prop :=
  s.extents = true → s.DevSole fs read lbn ∨ s.NoExtent fs read lbn

/-- The condition of a step.  `ext2_balloc` of an extent-mapped inode does not come back, so that there is
nothing to ask of it. -/
def MetaOp.Clean (fs : MExt2fs) : MetaOp D → MetaState D → Prop
  | ballocStore env _ lbn _ _ _ _, s => s.extents = false → env.Fits fs lbn
  | atoffStore read lbn _ _, s =>
      s.AtoffClean fs read lbn ∧ (s.extents = false → s.w.map fs lbn ≠ 0)
  | atoffRead read lbn, s => s.AtoffClean fs read lbn
  | flush _, _ => True
  | evict _, _ => True

/-- No extent and no buffer: the call fails. -/
theorem atoff_noExtent (hext : s.extents = true) (h : s.NoExtent fs read lbn) :
    ext2BlkatoffBuf fs read s lbn = none := by
  obtain ⟨hfind, hno⟩ := h
  have haddr : extAddr fs read s.w lbn = .error .eio := by
    unfold extAddr ext4Bmapext
    split
    · next header ep heq => exact absurd heq (hfind header ep)
    · rfl
  have hget : s.cache.get (Vnode.file, (lbn : ℤ)) none = none := by
    unfold Cache.get
    rw [List.find?_eq_none.2 fun b hb => by simpa using hno b hb]
    rfl
  unfold ext2BlkatoffBuf
  rw [if_pos hext]
  split
  · next header ep heq => exact absurd heq (hfind header ep)
  · rw [haddr]
    exact hget

/-- The extent branch of `ext2_blkatoff`, where its buffer is the only one of the disk block. -/
theorem atoff_extent (h : MetaInv fs s) (hext : s.extents = true)
    (hsole : s.DevSole fs read lbn)
    (hbuf : ext2BlkatoffBuf fs read s lbn = some (b, c')) :
    ∃ a, s.At fs lbn a ∧ Taken s.cache c' a ∧ b.addr = some a ∧ b.data = s.last lbn ∧
      (b.dirty = false → s.cache.disk a = s.last lbn) := by
  obtain ⟨hwf, p, hm, hsole⟩ := hsole
  obtain ⟨leaf, hfind, hp⟩ := find_of_maps hwf hm
  have hat : s.At fs lbn (fs.fsbtodb p) := by
    unfold MetaState.At
    rw [if_pos hext]
    exact ⟨p, hm, rfl⟩
  unfold ext2BlkatoffBuf at hbuf
  rw [if_pos hext] at hbuf
  simp only [hfind, hp, Option.map_eq_some_iff, Prod.mk.injEq] at hbuf
  obtain ⟨⟨b₀, c₀⟩, hget, rfl, rfl⟩ := hbuf
  have hmiss : ∀ m, missRead read s.cache (.ok (some (fs.fsbtodb p))) = some m →
      m = (some (fs.fsbtodb p), s.cache.disk (fs.fsbtodb p)) := by
    intro m hmm
    simp only [missRead] at hmm
    split at hmm
    · exact (Option.some.inj hmm).symm
    · simp at hmm
  obtain ⟨htaken, haddr⟩ := get_sole h.coherent.distinct hsole
    (fun m hmm => by rw [hmiss m hmm]) hget
  obtain ⟨hdata, hclean⟩ := get_shown h.coherent.distinct hsole (h.coherent.shows _ _ hat) hmiss hget
  exact ⟨_, hat, htaken, haddr, hdata, hclean⟩

/-- Reading a block keeps the invariant, and returns what was stored last. -/
theorem MetaInv.atoffRead (h : MetaInv fs s) (hclean : s.AtoffClean fs read lbn)
    (hbuf : ext2BlkatoffBuf fs read s lbn = some (b, c')) :
    MetaInv fs { s with cache := c'.give b } ∧ b.data = s.last lbn := by
  rcases Bool.eq_false_or_eq_true s.extents with hext | hext
  · rcases hclean hext with hsole | hno
    · obtain ⟨a, hat, htaken, haddr, hdata, hdirty⟩ := atoff_extent h hext hsole hbuf
      exact ⟨⟨h.readBack hat htaken haddr hdata hdirty, h.inj, h.func,
        fun hfalse => absurd (hext.symm.trans hfalse) (by decide)⟩, hdata⟩
    · rw [atoff_noExtent hext hno] at hbuf
      exact absurd hbuf (by simp)
  · unfold ext2BlkatoffBuf at hbuf
    rw [if_neg (by simp [hext])] at hbuf
    exact h.mappedRead hext hbuf

/-- A store through the buffer `ext2_blkatoff` returns. -/
theorem MetaInv.atoffStore (h : MetaInv fs s) (hclean : s.AtoffClean fs read lbn)
    (hmap : s.extents = false → s.w.map fs lbn ≠ 0) (sync : Bool) (f : D → D)
    (hbuf : ext2BlkatoffBuf fs read s lbn = some (b, c')) :
    MetaInv fs { s with
      cache := giveBuf sync (b, c') (f b.data)
      last := Function.update s.last lbn (f (s.last lbn)) } := by
  rw [(h.atoffRead hclean hbuf).2]
  rcases Bool.eq_false_or_eq_true s.extents with hext | hext
  · rcases hclean hext with hsole | hno
    · obtain ⟨a, hat, htaken, haddr, -, -⟩ := atoff_extent h hext hsole hbuf
      exact ⟨h.store hat htaken haddr sync, h.inj, h.func,
        fun hfalse => absurd (hext.symm.trans hfalse) (by decide)⟩
    · rw [atoff_noExtent hext hno] at hbuf
      exact absurd hbuf (by simp)
  · unfold ext2BlkatoffBuf at hbuf
    rw [if_neg (by simp [hext])] at hbuf
    refine h.mappedStore hext (hmap hext) hbuf (fun m hmm => ?_) sync (f (s.last lbn))
    cases haddr : fileAddr fs read s.w lbn with
    | error e => simp [haddr, missRead] at hmm
    | ok addr =>
      obtain rfl : addr = some _ :=
        (fileAddr_eq (h.mapped hext).fits haddr).trans (addrOf_of_ne (hmap hext))
      simp only [haddr, missRead] at hmm
      split at hmm
      · rw [← Option.some.inj hmm]
      · simp at hmm

/-- `ext2_balloc` of an extent-mapped inode stops the machine. -/
theorem ballocExtent_stops {env : BallocEnv} {ext : ExtEnv} {size : ℕ} {fill : Fill D} {sync : Bool}
    {junk : D} (hext : s.extents = true) :
    ((MetaOp.ballocStore env ext lbn size fill sync junk).run fs s).w.panicked = true := by
  have hlbn : ¬(lbn : ℤ) < 0 := by omega
  unfold MetaOp.run ballocBuf ext2BallocExtents
  simp only [hext, hlbn, if_true, if_false]

/-- The outcomes of `ext2_balloc` for a block-mapped inode: no buffer, the buffer of a new block, or
that of a block that was there. -/
theorem ballocBuf_mapped {env : BallocEnv} (ext : ExtEnv) (size : ℕ) (clrbuf : Bool) (junk : D)
    (hm : MappedInv fs s) (hext : s.extents = false) (henv : env.Fits fs lbn)
    (hrun : s.w.panicked = false) :
    ∃ w', w' = (ext2Balloc fs env false lbn size s.w).2 ∧
      ((ballocBuf fs env ext lbn size clrbuf junk s = (none, w') ∧
          w'.map fs lbn = s.w.map fs lbn) ∨
        (s.w.map fs lbn = 0 ∧ w'.map fs lbn ≠ 0 ∧ s.w.avail (w'.map fs lbn) = true ∧
          ∃ b c', s.cache.get (Vnode.file, (lbn : ℤ))
              (some (some (fs.fsbtodb (w'.map fs lbn)), junk)) = some (b, c') ∧
            ballocBuf fs env ext lbn size clrbuf junk s =
              (some (atAddr (.ok (some (fs.fsbtodb (w'.map fs lbn))))
                (if clrbuf then ({ b with data := 0 } : Buf BufKey ℤ D) else b), c'), w')) ∨
        (s.w.map fs lbn ≠ 0 ∧ w'.map fs lbn = s.w.map fs lbn ∧
          ∃ x b c', (clrbuf = true → x = s.cache.disk (fs.fsbtodb (s.w.map fs lbn))) ∧
            s.cache.get (Vnode.file, (lbn : ℤ))
              (some (some (fs.fsbtodb (s.w.map fs lbn)), x)) = some (b, c') ∧
            ballocBuf fs env ext lbn size clrbuf junk s = (some (b, c'), w'))) := by
  have spec := ext2Balloc_spec env false lbn size hm.sound
  have hfits := ext2Balloc_fits false size hm.sound henv hm.fits
  refine ⟨_, rfl, ?_⟩
  unfold ballocBuf
  rw [if_neg (by simp [hext])]
  rcases hball : ext2Balloc fs env false lbn size s.w with ⟨e, w'⟩
  rw [hball] at spec hfits
  cases e with
  | some e => exact .inl ⟨rfl, spec.failed (by simp)⟩
  | none =>
    by_cases hpanic : w'.panicked
    · -- only a block that is mapped already panics
      refine .inl ⟨if_pos hpanic, spec.found ?_⟩
      rcases spec.panicked with hsame | hpast
      · exact absurd (hpanic.symm.trans (hsame.trans hrun)) (by decide)
      · rw [map_direct fs hpast.1]
        exact hpast.2.1
    simp only [hpanic, Bool.false_eq_true, if_false]
    by_cases hzero : s.w.map fs lbn = 0
    · obtain ⟨hne, hfree⟩ := spec.linked rfl hzero fun hsync => absurd hsync (by decide)
      obtain ⟨b, c', hget⟩ := s.cache.exists_get (Vnode.file, (lbn : ℤ))
        (some (fs.fsbtodb (w'.map fs lbn)), junk)
      refine .inr (.inl ⟨hzero, hne, hfree, b, c', hget, ?_⟩)
      rw [if_pos hzero, fileAddr_of_ne hfits hne, missGet, hget]
      rfl
    · have hmap := spec.found hzero
      have haddr : fileAddr fs (fun _ => true) w' lbn = .ok (some (fs.fsbtodb (w'.map fs lbn))) :=
        fileAddr_of_ne hfits (by rwa [hmap])
      refine .inr (.inr ⟨hzero, hmap, ?_⟩)
      rw [if_neg hzero, haddr, hmap]
      have hget := s.cache.exists_get (Vnode.file, (lbn : ℤ))
      split
      · obtain ⟨b, c', hget⟩ := hget (some (fs.fsbtodb (s.w.map fs lbn)), s.cache.disk _)
        exact ⟨_, b, c', fun _ => rfl, hget, congrArg (·, w') hget⟩
      · next hno =>
        obtain ⟨b, c', hget⟩ := hget (some (fs.fsbtodb (s.w.map fs lbn)), junk)
        exact ⟨junk, b, c', fun hclr => absurd (.inr hclr) hno, hget, congrArg (·, w') hget⟩

/-- A store through the buffer `ext2_balloc` returns for a block-mapped inode. -/
theorem MetaInv.ballocMapped {env : BallocEnv} {ext : ExtEnv} {size : ℕ} {fill : Fill D}
    {sync : Bool} {junk : D} (h : MetaInv fs s) (hext : s.extents = false)
    (henv : env.Fits fs lbn) (hrun : s.w.panicked = false) :
    MetaInv fs ((MetaOp.ballocStore env ext lbn size fill sync junk).run fs s) := by
  have hm := h.mapped hext
  have hsound := ext2Balloc_sound env false lbn size hm.sound
  have hfits := ext2Balloc_fits false size hm.sound henv hm.fits
  have hother := (ext2Balloc_spec env false lbn size hm.sound).grows.map_ne
  obtain ⟨w', rfl, hbuf⟩ := ballocBuf_mapped ext size fill.clrbuf junk hm hext henv hrun
  set w' := (ext2Balloc fs env false lbn size s.w).2
  have hsame : w'.map fs lbn = s.w.map fs lbn → MetaInv fs { s with w := w' } := by
    intro heq
    refine h.setW hext hsound hfits fun l => ?_
    by_cases hl : l = lbn
    · rw [hl, heq]
    · exact hother l hl
  unfold MetaOp.run
  rcases hbuf with ⟨hbuf, heq⟩ | ⟨hzero, hne, hfree, b, c', hget, hbuf⟩ |
    ⟨hne, heq, x, b, c', hx, hget, hbuf⟩
  · simp only [hbuf]
    exact hsame heq
  · -- a new block: the buffer is new or that of the hole
    simp only [hbuf]
    have hb : b.addr = none ∨ b.addr = some (fs.fsbtodb (w'.map fs lbn)) := by
      rcases get_cases hget with ⟨l, r, hc, -, -, hkey, -⟩ | ⟨-, -, m, hmm, rfl⟩
      · exact .inl (hm.hole hzero b (by simp [hc]) hkey).1
      · rw [← Option.some.inj hmm]
        exact .inr rfl
    set b₀ := if fill.clrbuf then ({ b with data := 0 } : Buf BufKey ℤ D) else b with hb₀
    have haddr₀ : b₀.addr = b.addr := by
      rw [hb₀]
      split <;> rfl
    have hkey₀ : b₀.key = b.key := by
      rw [hb₀]
      split <;> rfl
    obtain ⟨haddr, hkey, hdata⟩ := atAddr_addr rfl (haddr₀ ▸ hb)
    have hstored : fill.apply (atAddr (.ok (some (fs.fsbtodb (w'.map fs lbn)))) b₀).data =
        fill.apply (s.last lbn) := by
      rw [hdata, hm.holes lbn hzero, hb₀]
      split
      · rfl
      · next hclr => exact Fill.apply_whole (by simpa using hclr) _ _
    rw [hstored]
    exact h.newStore hext hsound hfits hzero hne hfree hother hget (hkey.trans hkey₀) haddr sync _
  · -- a block that was there
    simp only [hbuf]
    have hat : s.At fs lbn (fs.fsbtodb (s.w.map fs lbn)) := (at_mapped hext).2 ⟨hne, rfl⟩
    have hstored : fill.apply b.data = fill.apply (s.last lbn) := by
      cases hclr : fill.clrbuf with
      | false => exact Fill.apply_whole hclr _ _
      | true =>
        rw [(get_shown h.coherent.distinct (hm.sole hne) (h.coherent.shows _ _ hat)
          (fun m hmm => by rw [← Option.some.inj hmm, hx hclr]) hget).1]
    rw [hstored]
    have hmiss : ∀ m, some (some (fs.fsbtodb (w'.map fs lbn)), x) = some m →
        m.1 = some (fs.fsbtodb (w'.map fs lbn)) := fun m hmm => by rw [← Option.some.inj hmm]
    rw [← heq] at hget hne
    exact (hsame heq).mappedStore hext hne hget hmiss sync _

/-! ### Runs -/

/-- A directory or a link before its first block is in the cache: what was stored last is on the disk,
and no block is used twice. -/
structure MetaStart (fs : MExt2fs) (s : MetaState D) : Prop where
  bufs : s.cache.bufs = []
  shown : ∀ l a, s.At fs l a → s.cache.disk a = s.last l
  mapped : s.extents = false →
    s.w.Sound fs ∧ s.w.DirectFits fs ∧ ∀ l, s.w.map fs l = 0 → s.last l = 0
  extents : s.extents = true →
    s.w.ExtWf fs (fun _ => true) ∧ ∀ l l' p, s.w.ExtMaps fs l p → s.w.ExtMaps fs l' p → l' = l

theorem MetaStart.inv (h : MetaStart fs s) : MetaInv fs s where
  coherent := by
    refine ⟨?_, fun l a hat => ⟨fun b hb => ?_, fun _ => h.shown l a hat⟩⟩
    · unfold Distinct
      rw [h.bufs]
      exact List.Pairwise.nil
    · rw [h.bufs] at hb
      exact absurd hb List.not_mem_nil
  inj l l' a hat hat' := by
    rcases Bool.eq_false_or_eq_true s.extents with hext | hext
    · unfold MetaState.At at hat hat'
      rw [if_pos hext] at hat hat'
      obtain ⟨p, hp, rfl⟩ := hat
      obtain ⟨p', hp', heq⟩ := hat'
      rw [MExt2fs.fsbtodb_inj, Nat.cast_inj] at heq
      exact (h.extents hext).2 l l' p hp (heq ▸ hp')
    · exact at_mapped_inj hext (h.mapped hext).1 l l' a hat hat'
  func l a a' hat hat' := by
    rcases Bool.eq_false_or_eq_true s.extents with hext | hext
    · unfold MetaState.At at hat hat'
      rw [if_pos hext] at hat hat'
      obtain ⟨p, hp, rfl⟩ := hat
      obtain ⟨p', hp', rfl⟩ := hat'
      rw [maps_func (h.extents hext).1 hp hp']
    · exact at_mapped_func hext l a a' hat hat'
  mapped hext := by
    obtain ⟨hsound, hfits, hholes⟩ := h.mapped hext
    refine ⟨hsound, hfits, fun b hb => ?_, ?_, hholes⟩
    · rw [h.bufs] at hb
      exact absurd hb List.not_mem_nil
    · rw [h.bufs]
      exact List.nodup_nil

/-- What the cache does on its own keeps the invariant. -/
theorem MetaInv.setCache {c : Cache BufKey ℤ D} (h : MetaInv fs s)
    (hco : c.Coherent (s.At fs) s.last)
    (hmem : ∀ b ∈ c.bufs, ∃ b₀ ∈ s.cache.bufs, b.key = b₀.key ∧ b.addr = b₀.addr ∧ b.data = b₀.data)
    (hnodup : (s.cache.bufs.map Buf.key).Nodup → (c.bufs.map Buf.key).Nodup) :
    MetaInv fs { s with cache := c } := by
  refine ⟨hco, h.inj, h.func, fun hext => ?_⟩
  have hm := h.mapped hext
  refine ⟨hm.sound, hm.fits, fun b hb => ?_, hnodup hm.nodup, hm.holes⟩
  obtain ⟨b₀, hb₀, hkey, haddr, hdata⟩ := hmem b hb
  obtain ⟨l, hk, ha, hd⟩ := hm.keyed b₀ hb₀
  exact ⟨l, hkey.trans hk, haddr.trans ha, fun hnone => hdata.trans (hd (haddr ▸ hnone))⟩

/-- The invariant, as long as the machine goes on. -/
def GoesOnInv (fs : MExt2fs) (s : MetaState D) : Prop := s.w.panicked = false → MetaInv fs s

/-- **Every step keeps the invariant**, where its condition holds. -/
theorem MetaOp.step_inv (op : MetaOp D) (h : GoesOnInv fs s) (hclean : op.Clean fs s) :
    GoesOnInv fs (op.step fs s) := by
  intro hon
  unfold MetaOp.step at hon ⊢
  split at hon
  · next hstop => exact absurd (hon.symm.trans hstop) (by decide)
  next hrun =>
  rw [if_neg hrun]
  have hrun : s.w.panicked = false := by simpa using hrun
  replace h := h hrun
  cases op with
  | ballocStore env ext lbn size fill sync junk =>
    rcases Bool.eq_false_or_eq_true s.extents with hext | hext
    · rw [ballocExtent_stops hext] at hon
      cases hon
    · exact h.ballocMapped hext (hclean hext) hrun
  | atoffStore read lbn sync f =>
    rw [MetaOp.run]
    cases hbuf : ext2BlkatoffBuf fs read s lbn with
    | none => exact h
    | some r => exact h.atoffStore hclean.1 hclean.2 sync f hbuf
  | atoffRead read lbn =>
    rw [MetaOp.run]
    cases hbuf : ext2BlkatoffBuf fs read s lbn with
    | none => exact h
    | some r => exact (h.atoffRead hclean hbuf).1
  | flush i =>
    refine h.setCache (h.coherent.flush i) (fun b hb => flush_mem hb) fun hn => ?_
    rwa [flush_keys]
  | evict i =>
    have hsub := s.cache.evict_sublist i
    exact h.setCache (h.coherent.evict i) (fun b hb => ⟨b, hsub.subset hb, rfl, rfl, rfl⟩)
      fun hn => hn.sublist (hsub.map _)

/-- The invariant holds along every run whose steps meet their conditions, as long as it goes on. -/
theorem GoesOnInv.of_reach (h : Reach (MetaOp.step fs) (MetaOp.Clean fs) (MetaStart fs) s) :
    GoesOnInv fs s :=
  h.invariant (fun _ hs _ => hs.inv) fun op _ hs hclean => op.step_inv hs hclean

/-- **A read returns what was stored last**, in every run whose steps meet their conditions: for a
block-mapped inode the block map keeps the direct pointers in reach of the shift, and nothing is stored
into a hole; for an extent-mapped one the buffer that `ext2_blkatoff` finds is the only one of its disk
block, and a call of `ext2_balloc` ends the run. -/
theorem meta_runs (op : MetaOp D) {l : ℕ} {d : D}
    (h : Reach (MetaOp.step fs) (MetaOp.Clean fs) (MetaStart fs) s) (hclean : op.Clean fs s)
    (hres : op.result fs s = some (l, d)) : d = s.last l := by
  cases op with
  | atoffRead read lbn =>
    simp only [MetaOp.result] at hres
    by_cases hstop : s.w.panicked = true
    · rw [if_pos hstop] at hres
      cases hres
    have hinv := GoesOnInv.of_reach h (by simpa using hstop)
    rw [if_neg hstop] at hres
    simp only [Option.map_eq_some_iff, Prod.mk.injEq] at hres
    obtain ⟨⟨b, c'⟩, hbuf, rfl, rfl⟩ := hres
    exact (hinv.atoffRead hclean hbuf).2
  | ballocStore | atoffStore | flush | evict => simp [MetaOp.result] at hres

end

/-- An empty directory with indirect blocks. -/
def emptyDir : MetaState ℕ := ⟨false, World.empty fun _ => true, ⟨[], fun _ => 0⟩, fun _ => 0⟩

theorem emptyDir_start : MetaStart volume4k emptyDir where
  bufs := rfl
  shown _ _ _ := rfl
  mapped _ := by
    refine ⟨World.empty_sound _, fun i _ => ?_, fun l _ => rfl⟩
    rw [show emptyDir.w.ip.db i = 0 from rfl, Nat.zero_mul]
    exact pow_pos (by decide) _
  extents h := absurd h (by decide)

/-- A part of the first block is stored, its write delayed. -/
def storeFirst : MetaOp ℕ := .ballocStore lostWrite goodExtEnv 0 4096 (.part fun _ => 7) false 99

/-- What is stored in the first block of a new directory is read back. -/
theorem emptyDir_reads_back : 7 = (storeFirst.step volume4k emptyDir).last 0 := by
  have hclean : storeFirst.Clean volume4k emptyDir := by
    intro _ _ pref b hb
    obtain rfl := Option.some.inj hb
    decide
  exact meta_runs (.atoffRead (fun _ => true) 0)
    (Reach.call storeFirst (.start emptyDir_start) hclean)
    (fun h => absurd h (by decide +kernel)) (by decide +kernel)

/-- The first block of the directory gets block `2 ^ 29`, whose device address does not fit 32 bits. -/
def storeFar : MetaOp ℕ :=
  .ballocStore { lostWrite with alloc := fun _ _ => some (2 ^ 29) } goodExtEnv 0 4096 (.part fun _ => 7)
    false 99

/-- The directory after the store, when its buffer was written and given up. -/
def farDir : MetaState ℕ :=
  (MetaOp.evict 0).step volume4k ((MetaOp.flush 0).step volume4k (storeFar.step volume4k emptyDir))

/-- **A block from `2 ^ 29` on is read as a hole**: its device address is 0 in 32 bits, so that the buffer
has no place on the disk. -/
theorem farDir_reads_hole :
    farDir.extents = false ∧ farDir.w.map volume4k 0 = 2 ^ 29 ∧ farDir.last 0 = 7 ∧
      (MetaOp.atoffRead (fun _ => true) 0).result volume4k farDir = some (0, 0) ∧
      ¬∀ s : MetaState ℕ, Reach (MetaOp.step volume4k) (fun _ _ => True) (MetaStart volume4k) s →
        ∀ (op : MetaOp ℕ) (l d : ℕ), op.result volume4k s = some (l, d) → d = s.last l := by
  have hread : (MetaOp.atoffRead (fun _ => true) 0).result volume4k farDir = some (0, 0) := by
    decide +kernel
  have hlast : farDir.last 0 = 7 := by decide +kernel
  refine ⟨by decide +kernel, by decide +kernel, hlast, hread, fun h => ?_⟩
  have hstale := h farDir (.call (.evict 0) (.call (.flush 0) (.call storeFar (.start emptyDir_start)
    trivial) trivial) trivial) (.atoffRead (fun _ => true) 0) 0 0 hread
  rw [hlast] at hstale
  exact absurd hstale (by decide)

end Ext2fs
