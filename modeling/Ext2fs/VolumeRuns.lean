import Ext2fs.FileRuns

/-!
# Runs on many files of one volume

Any number of block-mapped regular files share the device and the block bitmap.  A call on one of them is
a run of `ext2_write` or `ext2_truncate` on its own inode, which has not the flag `IN_E4EXTENTS`; what keeps
it from the other files is `FileFrame`: the blocks it writes, frees or comes to refer to were its own, or
free.

* `ext2Balloc_frame`, `ext2Write_frame`, `ext2Truncate_frame` — every call has the frame;
* `FileTable.run_inv` — one call keeps every file whole, and the files apart;
* `volume_runs` — **every run of clean calls on any of the files**.
-/

namespace Ext2fs

open PtrTree

/-! ### What a call leaves alone -/

/-- From `w` to `w'` the file gave up some of its blocks and took some that were free; what is in use
otherwise was not written and stays in use. -/
structure FileFrame (fs : MExt2fs) (w w' : World) : Prop where
  owned : ∀ b, w'.Owned fs b → w.Owned fs b ∨ w.avail b = true
  store : ∀ b, w.avail b = false → ¬ w.Owned fs b → w'.store fs b = w.store fs b
  avail : ∀ b, w.avail b = false → ¬ w.Owned fs b → w'.avail b = false

section

variable {fs : MExt2fs} {w w' w'' : World} {env : BallocEnv} {sync : Bool} {lbn size : ℕ}

theorem FileFrame.refl (w : World) : FileFrame fs w w :=
  ⟨fun _ h => .inl h, fun _ _ _ => rfl, fun _ h _ => h⟩

/-- A block in use that the file does not have is none that it comes to have. -/
theorem FileFrame.not_owned (h : FileFrame fs w w') {b : ℕ} (hb : w.avail b = false)
    (hown : ¬ w.Owned fs b) : ¬ w'.Owned fs b := by
  intro hown'
  rcases h.owned b hown' with hold | hfree
  · exact hown hold
  · rw [hb] at hfree
    cases hfree

theorem FileFrame.trans (h : FileFrame fs w w') (h' : FileFrame fs w' w'') : FileFrame fs w w'' where
  owned b hb := by
    by_cases hown : w.Owned fs b
    · exact .inl hown
    · by_cases hav : w.avail b = true
      · exact .inr hav
      · rw [Bool.not_eq_true] at hav
        rcases h'.owned b hb with hmid | hmid
        · exact absurd hmid (h.not_owned hav hown)
        · rw [h.avail b hav hown] at hmid
          cases hmid
  store b hb hown :=
    (h'.store b (h.avail b hb hown) (h.not_owned hb hown)).trans (h.store b hb hown)
  avail b hb hown := h'.avail b (h.avail b hb hown) (h.not_owned hb hown)

/-- Only the pointers matter. -/
theorem FileFrame.congr (h : FileFrame fs w w') (hdb : w''.ip.db = w'.ip.db)
    (hib : w''.ip.ib = w'.ip.ib) (hdev : w''.dev = w'.dev) (hav : w''.avail = w'.avail) :
    FileFrame fs w w'' := by
  have hst : w''.store fs = w'.store fs := by unfold World.store; rw [hdev]
  have hslot : w''.ip.slot = w'.ip.slot := Inode.slot_congr hdb hib
  refine ⟨fun b hb => h.owned b ?_, fun b hb hown => ?_, fun b hb hown => ?_⟩
  · simpa only [World.Owned, Owns, hst, hslot] using hb
  · rw [hst]
    exact h.store b hb hown
  · rw [hav]
    exact h.avail b hb hown

theorem FileFrame.mark (h : FileFrame fs w w') : FileFrame fs w w'.mark :=
  h.congr rfl rfl rfl rfl

theorem FileFrame.setSize (h : FileFrame fs w w') (length : ℕ) :
    FileFrame fs w (w'.setSize length) :=
  h.congr rfl rfl rfl rfl

/-- `ext2_update` writes the inode back as it is. -/
theorem FileFrame.update (h : FileFrame fs w w') (env : UpdateEnv) (waitfor : Bool) :
    FileFrame fs w (ext2Update fs env waitfor w').2 := by
  obtain ⟨flag, image, hup, _⟩ := ext2Update_frame fs env waitfor w'
  rw [hup]
  exact h.congr rfl rfl rfl rfl

/-! ### `ext2_balloc` -/

/-- The direct blocks: nothing is written. -/
theorem ballocDirect_store (fs : MExt2fs) (env : BallocEnv) (lbn size : ℕ) (w : World) :
    (ballocDirect fs env lbn size w).2.store fs = w.store fs := by
  simp only [ballocDirect]
  split
  · rfl
  · split
    · split
      · split <;> rfl
      · rfl
    · split
      · exact World.lostBit_store fs w _
      · next newb w₁ htake =>
        have hstore := (World.takeBlock_spec htake).store
        split
        · rw [World.blkfree_store]
          exact hstore
        · exact hstore

/-- The indirect blocks: only those of the slot are written, and new ones. -/
theorem ballocIndirect_store {ap : Indir} {path : List Indir} {s off b : ℕ} (hs : w.Sound fs)
    (hl : locate fs.nindir lbn = some (s, off)) (h12 : 12 ≤ s) (hap : ap.off = s - 12)
    (hdig : path.map Indir.off = digits fs.nindir (height s) off) (hb : w.avail b = false)
    (hown : ¬ w.Owned fs b) :
    (ballocIndirect fs env sync lbn ap path w).2.store fs b = w.store fs b := by
  obtain ⟨hsn, hoff, _⟩ := locate_eq_some.1 hl
  obtain ⟨k, hk⟩ : ∃ k, height s = k + 1 := ⟨s - 12, by unfold height NDADDR; omega⟩
  rw [hk] at hoff hdig
  have hslot : w.ip.slot s = w.ip.ib ap.off := by rw [Inode.slot_indirect h12, hap]
  have hsep : Sep fs.nindir (w.store fs) (k + 1) (w.ip.slot s) := hk ▸ hs.shaped.sep s hsn
  have hmem : ∀ b, Mem fs.nindir (w.store fs) (k + 1) (w.ip.slot s) b → w.Owned fs b :=
    fun b hb => ⟨s, hsn, hk ▸ hb⟩
  simp only [ballocIndirect]
  split
  · next hnb =>
    rw [← hslot] at hnb ⊢
    have hused := fun b hb => hs.used b (hmem b hb)
    exact (ballocWalk_spec lbn k path off 0 0 _ w hdig hoff hnb hsep hused).2 b hb
      fun hm => hown (hmem b hm)
  · split
    · rw [World.lostBit_store]
    · next newb w₁ htake =>
      have htook := World.takeBlock_spec htake
      have hne : b ≠ newb := by
        rintro rfl
        rw [htook.free] at hb
        cases hb
      split
      · rw [World.blkfree_store, htook.store]
      · split
        · rw [World.blkfree_store, htook.store]
        · rw [htook.u32]
          generalize ext2Blkpref fs w.ip lbn (ap.off + NDADDR) w.ip.slot 0 = pref
          generalize hw₂ : ((w₁.setBlk fs newb fun _ => 0).setIb ap.off newb).mark = w₂
          have hst : ∀ x, w₂.store fs x = if x = newb then fun _ => 0 else w.store fs x := by
            intro x
            rw [← hw₂, World.mark_store, World.setIb_store, World.store_setBlk, htook.store]
          have hav : w₂.avail = w₁.avail := hw₂ ▸ rfl
          have hblank : ∀ i, w₂.store fs newb i = 0 := fun i => by rw [hst, if_pos rfl]
          have hused : ∀ x, Mem fs.nindir (w₂.store fs) (k + 1) newb x → w₂.avail x = false := by
            intro x hx
            rw [(mem_blank htook.pos hblank).1 hx, hav]
            exact htook.avail_self
          have hb₂ : w₂.avail b = false := by
            rw [hav]
            exact htook.quiet.avail_false hb
          have hwalk : (ballocWalk fs env sync lbn path 0 pref newb w₂).2.store fs b = w₂.store fs b :=
            (ballocWalk_spec lbn k path off 0 pref newb w₂ hdig hoff htook.pos (sep_blank hblank)
              hused).2 b hb₂ fun hm => hne ((mem_blank htook.pos hblank).1 hm)
          rw [hwalk, hst, if_neg hne]

/-- The whole call writes none of the blocks in use that the file does not have. -/
theorem ext2Balloc_store {b : ℕ} (hs : w.Sound fs) (hb : w.avail b = false)
    (hown : ¬ w.Owned fs b) : (ext2Balloc fs env sync lbn size w).2.store fs b = w.store fs b := by
  have hs₀ := hs.bump (lbn : ℤ)
  have hsame : (w.bumpNextAlloc lbn).store fs = w.store fs ∧
      (w.bumpNextAlloc lbn).avail = w.avail ∧ ((w.bumpNextAlloc lbn).Owned fs b → w.Owned fs b) := by
    unfold World.bumpNextAlloc
    split
    · exact ⟨rfl, rfl, fun h => h⟩
    · exact ⟨rfl, rfl, fun h => h⟩
  obtain ⟨hst, hav, hback⟩ := hsame
  unfold ext2Balloc
  rw [if_neg (by omega), ← hst]
  simp only [Int.toNat_natCast]
  split
  · exact congrFun (ballocDirect_store fs env lbn size _) b
  · next hge =>
    cases hl : locate fs.nindir lbn with
    | none => rw [getlbns_efbig fs.nindir_lt (locate_eq_none.1 hl)]
    | some so =>
      obtain ⟨s, off⟩ := so
      have h12 : 12 ≤ s := by
        by_contra hc
        obtain ⟨_, hoff, hlbn⟩ := locate_eq_some.1 hl
        have hc' : s < 12 := by omega
        simp only [height_direct hc', pow_zero, base_direct hc'] at hoff hlbn
        unfold NDADDR at hge
        omega
      obtain ⟨ap, path, hget, hap, hdig, _⟩ := getlbns_path fs.nindir_pos fs.nindir_lt hl h12
      rw [hget]
      exact ballocIndirect_store hs₀ hl h12 hap hdig (hav ▸ hb) fun h => hown (hback h)

theorem ext2Balloc_frame (env : BallocEnv) (sync : Bool) (lbn size : ℕ) (hs : w.Sound fs) :
    FileFrame fs w (ext2Balloc fs env sync lbn size w).2 := by
  have spec := ext2Balloc_spec env sync lbn size hs
  exact ⟨fun b hb => (spec.grows.owns_fresh b hb).imp_right And.left,
    fun b hb hown => ext2Balloc_store hs hb hown, fun b hb _ => spec.calm.avail_false hb⟩

/-! ### `ext2_write` -/

theorem extendLoop_frame (env : ℕ → BallocEnv) : ∀ (n lbn : ℕ) {w : World}, w.Sound fs →
    FileFrame fs w (extendLoop fs env n lbn w).2 := by
  intro n
  induction n with
  | zero => exact fun _ w _ => .refl w
  | succ n ih =>
    intro lbn w hs
    have hstep := ext2Balloc_frame (env lbn) false lbn fs.fsize hs
    have hsound := ext2Balloc_sound (env lbn) false lbn fs.fsize hs
    rw [extendLoop_succ]
    generalize ext2Balloc fs (env lbn) false lbn fs.fsize w = r at hstep hsound ⊢
    obtain ⟨e, w'⟩ := r
    cases e with
    | some e => exact hstep
    | none => exact hstep.trans (ih (lbn + 1) hsound)

theorem ext2Write_frame (env : WriteEnv) (append sync : Bool) (offset : ℤ) (resid : ℕ)
    (hs : w.Sound fs) : FileFrame fs w (ext2Write fs env append sync offset resid w).2 := by
  unfold ext2Write
  simp only
  generalize (if append then (w.ip.size : ℤ) else offset) = off
  split
  · exact .refl w
  · split
    · exact .refl w
    · split
      · exact .refl w
      · next hresid _ =>
        have halloc : FileFrame fs w (ext2ExtendAlloc fs env.balloc off.toNat resid w).2 := by
          unfold ext2ExtendAlloc
          rw [if_neg hresid]
          exact extendLoop_frame env.balloc _ _ hs
        generalize ext2ExtendAlloc fs env.balloc off.toNat resid w = r at halloc ⊢
        obtain ⟨e, w'⟩ := r
        cases e with
        | some e => exact halloc
        | none =>
          have hsized : ∀ v, FileFrame fs w v → ∀ size,
              FileFrame fs w (if w.ip.size < max w.ip.size (off.toNat + resid)
                then v.setSize size else v) := by
            intro v hv size
            split
            · exact hv.setSize size
            · exact hv
          have hgrown := hsized w' halloc (max w.ip.size (off.toNat + resid))
          simp only
          split
          · exact hsized _ hgrown w.ip.size
          · split
            · exact hgrown.mark.update env.toUpdateEnv true
            · exact hgrown.mark

/-! ### `ext2_truncate` -/

theorem truncExtend_frame (env : TruncEnv) (sync : Bool) {length : ℕ} (hs : w.Sound fs) :
    FileFrame fs w (truncExtend fs env sync length w).2 := by
  unfold truncExtend
  split
  · exact .refl w
  · next hbig =>
    have hbound := base_nslots_lt fs
    have hK : fs.coveredBlocks length ≤ base fs.nindir NSLOTS := coveredBlocks_le (by omega)
    have hlast : fs.lblkno (length - 1) ≤ fs.coveredBlocks length :=
      Nat.div_le_div_right (by omega)
    have hlbn : i32 (fs.lblkno (length - 1) : ℤ) = fs.lblkno (length - 1) :=
      i32_of_lt (by omega) (by omega)
    simp only [hlbn]
    have hstep := ext2Balloc_frame env.balloc sync (fs.lblkno (length - 1))
      (fs.blkoff (length - 1) + 1) hs
    generalize ext2Balloc fs env.balloc sync (fs.lblkno (length - 1))
      (fs.blkoff (length - 1) + 1) w = r at hstep ⊢
    obtain ⟨e, w'⟩ := r
    cases e with
    | some e => exact hstep
    | none => exact (hstep.setSize length).mark.update env.toUpdateEnv (!env.async)

theorem truncPartial_frame (env : TruncEnv) (sync : Bool) {length : ℕ} (hs : w.Sound fs)
    (hK : fs.coveredBlocks length ≤ base fs.nindir NSLOTS) :
    FileFrame fs w (truncPartial fs env sync length w).2 := by
  unfold truncPartial
  simp only
  split
  · exact (FileFrame.refl w).setSize length
  · have hbound := base_nslots_lt fs
    have hlast : fs.lblkno length ≤ fs.coveredBlocks length := by
      rw [coveredBlocks_eq]
      exact Nat.le_add_right _ _
    have hlbn : i32 (fs.lblkno length : ℤ) = fs.lblkno length := i32_of_lt (by omega) (by omega)
    rw [hlbn]
    have hstep := ext2Balloc_frame env.balloc sync (fs.lblkno length) (fs.blkoff length) hs
    generalize ext2Balloc fs env.balloc sync (fs.lblkno length) (fs.blkoff length) w = r at hstep ⊢
    obtain ⟨e, w'⟩ := r
    cases e with
    | some e => exact hstep
    | none => exact hstep.setSize length

/-- A release writes and frees blocks of the file only. -/
theorem ReleaseSpec.file_frame {env : TruncEnv} {length : ℕ} {w₁ : World} {u : Freeing}
    {r : Option Errno × World} (h : ReleaseSpec fs env length w w₁ u r)
    (hio : ∀ s < NSLOTS, SlotIo fs env (w.store fs) w.ip (fs.coveredBlocks length) s) :
    FileFrame fs w r.2 where
  owned b hb := by
    obtain ⟨s, hs, hk⟩ := ((h.trims hio).owns_iff b).1 hb
    exact .inl ⟨s, hs, hk.mem⟩
  store b _ hown := by
    have hdev : w₁.store fs = w.store fs := by unfold World.store; rw [h.dev]
    have hframe : u.world.store fs b = w₁.store fs b := by
      apply h.inv.releases.frame
      rintro ⟨s, _, hs, hm⟩
      exact hown ⟨s, hs, hm⟩
    rw [h.result, ← hdev]
    exact hframe
  avail b hb hown := by
    obtain ⟨evs, _, _, hmem, _, havail⟩ := h.releases
    rw [havail b, hb]
    intro hin
    obtain ⟨e, he, hbno⟩ := List.mem_map.1 hin
    obtain ⟨⟨s, hs, hcut⟩, _⟩ := hmem e he
    rcases hcut.decode (h.start.range s hs) with ⟨b', hb', hm⟩ | ⟨hneg, _⟩
    · rw [hbno, Int.natCast_inj] at hb'
      exact hown ⟨s, hs, hb' ▸ hm⟩
    · omega

theorem ext2Truncate_frame {env : TruncEnv} {length : ℤ} (h : FileInv fs w)
    (hclean : env.Clean fs sync length w) :
    FileFrame fs w (ext2Truncate fs env sync length w).2 := by
  unfold ext2Truncate
  split
  · exact .refl w
  · next hneg =>
    simp only
    split
    · exact (FileFrame.refl w).mark.update env.toUpdateEnv false
    · split
      · exact truncExtend_frame env sync h.within.sound
      · next hge =>
        have hlen : length.toNat < w.ip.size := by omega
        have hsize := h.size_le
        have hK : fs.coveredBlocks length.toNat ≤ base fs.nindir NSLOTS :=
          coveredBlocks_le (by omega)
        have hio := hclean.2 (by omega) hlen
        have hwithin := (truncPartial_spec env sync h.within.sound hlen hK).within h hlen
        have hpart := truncPartial_frame env sync h.within.sound hK
        generalize truncPartial fs env sync length.toNat w = r at hpart hio hwithin ⊢
        obtain ⟨e, w'⟩ := r
        cases e with
        | some e => exact hpart
        | none =>
          simp only at hio hwithin ⊢
          have hrange : ∀ s < NSLOTS, w'.ip.slot s < 2 ^ 31 := by
            intro s hs
            by_cases hzero : w'.ip.slot s = 0
            · rw [hzero]
              norm_num
            · exact hwithin.range _ ⟨s, hs, mem_root hzero⟩
          have hrel : ∃ w₁ u, ReleaseSpec fs env length.toNat w' w₁ u
              (truncRelease fs env w.ip.size length.toNat w') :=
            truncRelease_spec (fun s hs hbig => absurd (hrange s hs) (by omega))
              hwithin.sound (fun s hs => (hrange s hs).trans (by norm_num)) hK
          obtain ⟨w₁, u, hrel⟩ := hrel
          exact hpart.trans (hrel.file_frame fun s hs h12 hle =>
            ⟨hrange s hs, fun hpos => hio s hs h12 hle hpos⟩)

/-- **One call** takes free blocks and gives back its own. -/
theorem FileOp.run_frame (op : FileOp) (h : FileInv fs w) (hclean : op.Clean fs w) :
    FileFrame fs w (op.run fs w) := by
  cases op with
  | write env append sync offset resid =>
    exact ext2Write_frame env append sync offset resid h.within.sound
  | truncate env sync length => exact ext2Truncate_frame h hclean

/-! ### The other files -/

/-- A file whose blocks were neither written nor freed is the file it was. -/
theorem FileInv.of_unchanged (h : FileInv fs w) (hip : w'.ip = w.ip)
    (hst : ∀ b, w.Owned fs b → w'.store fs b = w.store fs b)
    (hav : ∀ b, w.Owned fs b → w'.avail b = false) (hrun : w'.panicked = false) :
    FileInv fs w' ∧ (∀ b, w'.Owned fs b ↔ w.Owned fs b) ∧ ∀ l, w'.map fs l = w.map fs l := by
  have hgrows : ∀ l, MapGrows fs.nindir (w.store fs) (w'.store fs) w.ip w'.ip l fun _ => False :=
    fun l => .of_congr fs.nindir_pos h.within.sound.shaped (by rw [hip]) (by rw [hip]) hst
  have hown : ∀ b, w'.Owned fs b ↔ w.Owned fs b := fun b =>
    ⟨fun hb => ((hgrows 0).owns_fresh b hb).resolve_right not_false, (hgrows 0).owns_mono b⟩
  have hmap : ∀ l, w'.map fs l = w.map fs l := fun l =>
    (hgrows (l + 1)).map_ne l (Nat.ne_of_lt (Nat.lt_succ_self l))
  refine ⟨⟨⟨⟨(hgrows 0).shaped, fun b hb => hav b ((hown b).1 hb)⟩,
    fun b hb => h.within.range b ((hown b).1 hb), fun l hl => ?_, fun level hl hne => ?_, hrun⟩, ?_⟩,
    hown, hmap⟩
  · rw [hip] at hl
    rw [hmap]
    exact h.within.above l hl
  · rw [hip] at hne ⊢
    exact h.within.roots level hl hne
  · rw [hip]
    exact h.size_le

end

/-! ### Many files -/

/-- The inodes of the files in core, none with extents, each with the image written last, over what they
share. -/
structure FileTable (ι : Type*) where
  ip : ι → Inode
  image : ι → Option Image
  dev : ℤ → ℕ → ℕ
  avail : ℕ → Bool
  freed : List FreeEvent
  panicked : Bool

namespace FileTable

variable {ι : Type*}

/-- What a call on a file works on. -/
def world (t : FileTable ι) (i : ι) : World where
  ip := t.ip i
  dev := t.dev
  avail := t.avail
  freed := t.freed
  image := t.image i
  panicked := t.panicked

/-- Every file ends where its size says, and no block belongs to two of them. -/
structure Inv (fs : MExt2fs) (t : FileTable ι) : Prop where
  file : ∀ i, FileInv fs (t.world i)
  apart : ∀ i j, i ≠ j → ∀ b, (t.world i).Owned fs b → ¬ (t.world j).Owned fs b

/-- The block is in use, and no file has it. -/
def Reserved (fs : MExt2fs) (t : FileTable ι) (b : ℕ) : Prop :=
  t.avail b = false ∧ ∀ i, ¬ (t.world i).Owned fs b

variable {fs : MExt2fs} {t : FileTable ι} {i j : ι} {w : World}

theorem Inv.used (h : Inv fs t) {b : ℕ} (hb : (t.world i).Owned fs b) : t.avail b = false :=
  (h.file i).within.sound.used b hb

/-- Files without blocks are apart. -/
theorem inv_of_empty (h : ∀ i, (t.world i).EmptyFile) : Inv fs t where
  file i := (h i).inv
  apart i j _ b hb _ := by
    obtain ⟨s, hs, hm⟩ := hb
    rw [(h i).slots s hs] at hm
    exact not_mem_null hm

/-- What a call leaves its file with belongs to no other: it was the file's own, or free. -/
theorem Inv.taken_apart (h : Inv fs t) (hframe : FileFrame fs (t.world i) w) (hne : j ≠ i) {b : ℕ}
    (hb : w.Owned fs b) : ¬ (t.world j).Owned fs b := by
  intro hj
  rcases hframe.owned b hb with hold | hfree
  · exact h.apart j i hne b hj hold
  · have hused : (t.world i).avail b = false := h.used hj
    rw [hfree] at hused
    cases hused

variable [DecidableEq ι]

/-- What a call on a file leaves behind. -/
def put (t : FileTable ι) (i : ι) (w : World) : FileTable ι where
  ip := Function.update t.ip i w.ip
  image := Function.update t.image i w.image
  dev := w.dev
  avail := w.avail
  freed := w.freed
  panicked := w.panicked

/-- A call on one of the files. -/
def run (fs : MExt2fs) (c : ι × FileOp) (t : FileTable ι) : FileTable ι :=
  t.put c.1 (c.2.run fs (t.world c.1))

/-- The call is clean on its file. -/
def Clean (fs : MExt2fs) (c : ι × FileOp) (t : FileTable ι) : Prop := c.2.Clean fs (t.world c.1)

theorem world_put_self : (t.put i w).world i = w := by
  simp only [world, put, Function.update_self]

theorem world_put_ip (h : j ≠ i) : ((t.put i w).world j).ip = (t.world j).ip := by
  simp only [world, put, Function.update_of_ne h]

/-- What a step does to the other files: nothing. -/
theorem Inv.other (h : Inv fs t) (hframe : FileFrame fs (t.world i) w) (hrun : w.panicked = false)
    (hne : j ≠ i) : FileInv fs ((t.put i w).world j) ∧
      (∀ b, ((t.put i w).world j).Owned fs b ↔ (t.world j).Owned fs b) ∧
      ∀ l, ((t.put i w).world j).map fs l = (t.world j).map fs l :=
  (h.file j).of_unchanged (world_put_ip hne)
    (fun b hb => hframe.store b ((h.file j).within.sound.used b hb) (h.apart j i hne b hb))
    (fun b hb => hframe.avail b ((h.file j).within.sound.used b hb) (h.apart j i hne b hb)) hrun

/-- **One call keeps every file whole, and the files apart.** -/
theorem run_inv (hfrag : fs.fsize = fs.bsize) (c : ι × FileOp) (h : Inv fs t)
    (hclean : Clean fs c t) : Inv fs (run fs c t) := by
  obtain ⟨i, op⟩ := c
  have hinv := op.run_inv hfrag (h.file i) hclean
  have hframe := op.run_frame (h.file i) hclean
  have hother := fun {j} => h.other (j := j) hframe hinv.within.panicked
  refine ⟨fun j => ?_, fun j k hjk b hj hk => ?_⟩
  · by_cases hji : j = i
    · rw [hji, run, world_put_self]
      exact hinv
    · exact (hother hji).1
  · by_cases hji : j = i
    · subst hji
      rw [run, world_put_self] at hj
      exact h.taken_apart hframe (Ne.symm hjk) hj (((hother (Ne.symm hjk)).2.1 b).1 hk)
    · have hj' := ((hother hji).2.1 b).1 hj
      by_cases hki : k = i
      · subst hki
        rw [run, world_put_self] at hk
        exact h.taken_apart hframe hjk hk hj'
      · exact h.apart j k hjk b hj' (((hother hki).2.1 b).1 hk)

/-- A call on one file changes the block map of no other. -/
theorem run_map_ne (hfrag : fs.fsize = fs.bsize) (c : ι × FileOp) (h : Inv fs t)
    (hclean : Clean fs c t) (hne : j ≠ c.1) (l : ℕ) :
    ((run fs c t).world j).map fs l = (t.world j).map fs l :=
  (h.other (c.2.run_frame (h.file c.1) hclean) (c.2.run_inv hfrag (h.file c.1) hclean).within.panicked
    hne).2.2 l

/-- What is in use and belongs to no file is neither written, freed nor taken. -/
theorem run_reserved (hfrag : fs.fsize = fs.bsize) (c : ι × FileOp) (h : Inv fs t)
    (hclean : Clean fs c t) {b : ℕ}
    (hb : Reserved fs t b) :
    Reserved fs (run fs c t) b ∧ (run fs c t).dev (fs.fsbtodb b) = t.dev (fs.fsbtodb b) := by
  obtain ⟨i, op⟩ := c
  have hinv := op.run_inv hfrag (h.file i) hclean
  have hframe := op.run_frame (h.file i) hclean
  refine ⟨⟨hframe.avail b hb.1 (hb.2 i), fun j hj => ?_⟩, hframe.store b hb.1 (hb.2 i)⟩
  by_cases hji : j = i
  · subst hji
    rw [run, world_put_self] at hj
    exact hframe.not_owned hb.1 (hb.2 j) hj
  · exact hb.2 j (((h.other hframe hinv.within.panicked hji).2.1 b).1 hj)

/-- The invariant of a run from `t₀`, with what was in use there without belonging to a file. -/
def RunInv (fs : MExt2fs) (t₀ t : FileTable ι) : Prop :=
  Inv fs t ∧ ∀ b, Reserved fs t₀ b →
    Reserved fs t b ∧ t.dev (fs.fsbtodb b) = t₀.dev (fs.fsbtodb b)

theorem RunInv.run (hfrag : fs.fsize = fs.bsize) (c : ι × FileOp) {t₀ : FileTable ι}
    (h : RunInv fs t₀ t) (hclean : Clean fs c t) :
    RunInv fs t₀ (run fs c t) := by
  refine ⟨run_inv hfrag c h.1 hclean, fun b hb => ?_⟩
  obtain ⟨hres, hdev⟩ := h.2 b hb
  obtain ⟨hres', hdev'⟩ := run_reserved hfrag c h.1 hclean hres
  exact ⟨hres', hdev'.trans hdev⟩

/-- **Every run of clean calls on any of the files**, in any order: every file ends where its size says
and passes the range test of `fsck`; no block belongs to two files, and none that belongs to one is free;
a call on one file changes the block map of no other; and the blocks that were in use without belonging to
a file stay in use, belong to none and are not written. -/
theorem volume_runs (hfrag : fs.fsize = fs.bsize) {t₀ : FileTable ι} (h₀ : Inv fs t₀)
    (h : Runs.Reach (run fs) (Clean fs) (· = t₀) t) :
    (∀ i, FileOk fs (t.world i)) ∧
    (∀ i j b, (t.world i).Owned fs b → (t.world j).Owned fs b → i = j) ∧
    (∀ i b, (t.world i).Owned fs b → t.avail b = false) ∧
    (∀ c, Clean fs c t → ∀ j, j ≠ c.1 → ∀ l,
      ((run fs c t).world j).map fs l = (t.world j).map fs l) ∧
    ∀ b, Reserved fs t₀ b → Reserved fs t b ∧ t.dev (fs.fsbtodb b) = t₀.dev (fs.fsbtodb b) := by
  obtain ⟨hinv, hkept⟩ : RunInv fs t₀ t := by
    apply h.invariant
    · rintro _ rfl
      exact ⟨h₀, fun b hb => ⟨hb, rfl⟩⟩
    · exact fun c t hinv hclean => hinv.run hfrag c hclean
  refine ⟨fun i => (hinv.file i).ok, fun i j b hi hj => ?_, fun i b hb => hinv.used hb,
    fun c hclean j hne l => run_map_ne hfrag c hinv hclean hne l, hkept⟩
  by_contra hne
  exact hinv.apart i j hne b hi hj

/-- Two empty files on a volume on which all blocks but the first 100 are free. -/
def twoEmpty : FileTable Bool where
  ip _ := emptyInode
  image _ := none
  dev _ _ := 0
  avail b := decide (100 ≤ b)
  freed := []
  panicked := false

theorem twoEmpty_inv : Inv volume4k twoEmpty :=
  inv_of_empty fun _ => ⟨rfl, fun s _ => World.empty_slot (fun _ => true) s, rfl⟩

/-- Blocks are written to a file. -/
def writeCall (i : Bool) (offset : ℤ) (resid : ℕ) : Bool × FileOp :=
  (i, .write (.plain none) false true offset resid)

/-- A file is cut. -/
def cutCall (i : Bool) (length : ℤ) : Bool × FileOp :=
  (i, .truncate { (WriteEnv.plain none).toUpdateEnv with
    balloc := (WriteEnv.plain none).balloc 0, read := fun _ => true, write := fun _ => true,
    invalid := fun _ => true, invalidate := none, bitmapOk := fun _ => true } true length)

/-- One file has the blocks 100 and 101, the other has the block 102 behind a hole. -/
def twoFiles : FileTable Bool :=
  run volume4k (writeCall false 8192 4096) (run volume4k (writeCall true 0 8192) twoEmpty)

theorem twoFiles_inv : Inv volume4k twoFiles :=
  run_inv rfl _ (run_inv rfl _ twoEmpty_inv (.inr (.inr (.inr (.inr (.inl (by decide +kernel)))))))
    (.inr (.inr (.inr (.inr (.inl (by decide +kernel))))))

/-- The second file is cut to nothing, and its block goes to the first one. -/
theorem volume_runs_two :
    let t := run volume4k (writeCall true 8192 4096) (run volume4k (cutCall false 0) twoFiles)
    (∀ i, FileOk volume4k (t.world i)) ∧
    (∀ i j b, (t.world i).Owned volume4k b → (t.world j).Owned volume4k b → i = j) ∧
    (∀ i b, (t.world i).Owned volume4k b → t.avail b = false) ∧
    (∀ c, Clean volume4k c t → ∀ j, j ≠ c.1 → ∀ l,
      ((run volume4k c t).world j).map volume4k l = (t.world j).map volume4k l) ∧
    ∀ b, Reserved volume4k twoFiles b → Reserved volume4k t b ∧
      t.dev (volume4k.fsbtodb b) = twoFiles.dev (volume4k.fsbtodb b) := by
  refine volume_runs rfl twoFiles_inv (.call _ (.call _ (.start rfl) ⟨fun _ h => ?_, fun _ _ s _ _ _ hkept => ?_⟩)
    (.inr (.inr (.inr (.inr (.inl (by decide +kernel)))))))
  · exact absurd h (Nat.not_lt_zero _)
  · have hnone : volume4k.coveredBlocks (0 : ℤ).toNat = 0 := by decide
    unfold keptOf at hkept
    omega

/-- The block 102 has moved. -/
example : (twoFiles.world false).map volume4k 2 = 102 ∧
    ((run volume4k (writeCall true 8192 4096) (run volume4k (cutCall false 0) twoFiles)).world true).map
      volume4k 2 = 102 := by
  decide +kernel

end FileTable

end Ext2fs
