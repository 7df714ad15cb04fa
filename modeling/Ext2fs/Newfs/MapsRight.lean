import Ext2fs.Newfs.FirstInodes

/-!
# Bitmaps, counters and the first inodes

When `mke2fs` comes to its end, what is on the volume is to agree with the counters in the descriptors.
The inode bitmap is written by whole bytes, and so is right when the inodes of a group fill whole bytes.

* `MapRight` — a bitmap and its counter;
* `MapsRight` — all bitmaps, the totals, the directories and the blocks of the first inodes;
* `make_meets` — what a run that comes to its end leaves;
* **`maps_right_iff`** — it is right exactly when the inodes of a group are a multiple of 8.
-/

namespace Ext2fs.Newfs

open Tracked Fsck Stopping

/-! ### What is to be -/

/-- The clear bits of a bitmap of `size` bits are inside the group, and as many as are counted. -/
structure MapRight (map : Bitmap) (size inside free : ℕ) : Prop where
  inside : ∀ i < size, map.isclr i = true → i < inside
  free : (List.range size).countP map.isclr = free

/-- The inodes that are created. -/
def created (sb : Sb) : List ℕ :=
  if sb.resize then [Fsck.ROOTINO, LOSTFOUNDINO, RESIZEINO] else [Fsck.ROOTINO, LOSTFOUNDINO]

namespace Volume

variable (vol : Volume) (p : Params) (sb : Sb)

/-- The inode in the slot of its number. -/
def inode (ino : ℕ) : Option Node := do
  let d ← vol.gd[(ino - 1) / sb.ipg]?
  (vol.disk (d.i_tables + (ino - 1) % sb.ipg / p.ipb)).slots ((ino - 1) % sb.ipg % p.ipb)

/-- The directories that are created in a group. -/
def dirsIn (c : ℕ) : ℕ := (created sb).countP fun ino => decide ((ino - 1) / sb.ipg = c) &&
  (vol.inode p sb ino).any fun n => decide (n.e2di_mode &&& IFMT = IFDIR)

/-- `b` is a block of a created inode, in `e2di_blocks[k]`. -/
def Owns (ino k b : ℕ) : Prop :=
  ino ∈ created sb ∧ k < 15 ∧ b ≠ 0 ∧ ∃ n, vol.inode p sb ino = some n ∧ n.e2di_blocks k = b

end Volume

/-- **The volume is right**: bitmaps, counters, totals, directories and the blocks of the first inodes. -/
structure MapsRight (p : Params) (sb : Sb) (vol : Volume) : Prop where
  group : ∀ c < sb.gcount, ∃ d, vol.gd[c]? = some d ∧
    (∃ map, vol.disk d.b_bitmap = .bitmap map ∧
      MapRight map (8 * p.bsize) (sb.groupEnd c - sb.base c) d.nbfree) ∧
    (∃ map, vol.disk d.i_bitmap = .bitmap map ∧ MapRight map (8 * p.bsize) sb.ipg d.nifree) ∧
    d.ndirs = vol.dirsIn p sb c
  fbcount : vol.fbcount = (vol.gd.map fun d => d.nbfree).sum
  ficount : vol.ficount = (vol.gd.map fun d => d.nifree).sum
  super : vol.disk (sb.base 0) = .super 0 vol.fbcount vol.ficount
  descs : ∀ k < sb.gdbcount, vol.disk (sb.base 0 + 1 + k) = .descs k vol.gd
  owns : ∀ ino ∈ created sb, ∃ k b, vol.Owns p sb ino k b
  inside : ∀ ino k b, vol.Owns p sb ino k b → b < sb.groupEnd 0 ∧
    ∀ d, vol.gd[0]? = some d → d.i_tables + sb.itpg ≤ b
  distinct : ∀ ino k ino' k' b, vol.Owns p sb ino k b → vol.Owns p sb ino' k' b → ino = ino' ∧ k = k'

/-! ### What a run leaves -/

section

variable {raw : Data → Bitmap} {p : Params} {sb : Sb} {m : Made}

/-- Old superblocks are wiped before anything is kept in memory. -/
theorem validate_meets : Meets (Upto p sb 0) (validate p sb) (fun _ => Upto p sb 0) fun _ => True := by
  have hwtfs : ∀ (what : What) (bno : ℤ) (size : ℕ),
      Meets (Upto p sb 0) (wtfs p what bno size []) (fun _ => Upto p sb 0) fun _ => True := by
    intro what bno size
    refine wtfs_meets (fun _ _ _ => trivial) fun vol hu _ => ?_
    exact ⟨hu.gd, hu.fbcount, hu.ficount, fun d hd => absurd hd (Nat.not_lt_zero d),
      fun d hd => absurd hd (Nat.not_lt_zero d), fun h0 => absurd h0 (Nat.lt_irrefl 0)⟩
  have hnop : Meets (Upto p sb 0) (Pure.pure () : Making Unit) (fun _ => Upto p sb 0) fun _ => True :=
    Meets.pure fun _ hu => hu
  unfold validate
  refine Meets.bind (hwtfs _ _ _) fun _ => Meets.each_mem _ fun pbsize _ => ?_
  unfold zapAll
  refine Meets.bind (Q := fun _ => Upto p sb 0)
    (Meets.ofOption (fun _ _ _ => trivial) fun _ _ _ hu => hu) fun blocks => ?_
  refine Meets.each_mem _ fun pblock _ => ?_
  unfold zap_old_sblock
  refine Meets.ite (fun _ => hnop) fun _ => Meets.ite (fun _ => hnop) fun _ => ?_
  exact Meets.ite (fun _ => Meets.ite (fun _ => hwtfs _ _ _) fun _ => hnop) fun _ => hnop

theorem hasSb_zero (p : Params) : p.hasSb 0 = true := by
  unfold Params.hasSb
  rw [show cgHasSb 0 = true from rfl, Bool.or_true]

/-- **A run that comes to its end.** -/
theorem make_meets (h : Ready p sb) : Meets (Upto p sb 0) (do
      validate p sb
      construct raw p sb) (fun _ vol => ∃ m, Filled p sb m ∧ Shows p sb m vol ∧
        vol.disk (sb.base 0) = .super 0 vol.fbcount vol.ficount ∧
          ∀ k < sb.gdbcount, vol.disk (sb.base 0 + 1 + k) = .descs k vol.gd) fun _ => True := by
  have hsb := hasSb_zero p
  have hat : sb.base 0 + (1 + sb.gdbcount) ≤ bitmapAt p sb 0 := by
    unfold bitmapAt
    rw [if_pos hsb]
    omega
  refine Meets.bind validate_meets fun _ => ?_
  unfold construct
  refine Meets.bind (groups_meet h.toApart) fun _ => ?_
  refine Meets.bind ((fsinit_meets h hsb).strengthen fun vol hu => hu.shows h) fun _ => ?_
  refine writeSuper_meets h.toFits h.gcount (h.near (Nat.le_add_right ..)) fun vol asked hvol => ?_
  obtain ⟨m, hfill, hs⟩ := hvol
  have hlen : ((.super 0 vol.fbcount vol.ficount : Data) ::
      (List.range sb.gdbcount).map fun k => Data.descs k vol.gd).length = 1 + sb.gdbcount := by
    rw [List.length_cons, List.length_map, List.length_range, Nat.add_comm]
  refine ⟨m, hfill, hs.congr h rfl rfl rfl fun b hb _ => putBlocks_outside (.inr ?_), ?_, fun k hk => ?_⟩
  · omega
  · exact putBlocks_inside (k := 0) (by omega)
  · show putBlocks _ _ _ (sb.base 0 + 1 + k) = _
    rw [Nat.add_assoc, Nat.add_comm 1 k]
    refine (putBlocks_inside (by omega)).trans ?_
    rw [List.getElem_cons_succ, List.getElem_map, List.getElem_range]

end

/-! ### Counting -/

section

variable {p : Params} {sb : Sb} {m : Made}

theorem countP_interval (a e n : ℕ) :
    (List.range n).countP (fun i => decide (a ≤ i ∧ i < e)) = min e n - a := by
  induction n with
  | zero => simp
  | succ n ih =>
    rw [List.range_succ, List.countP_append, ih, List.countP_singleton]
    by_cases hin : a ≤ n ∧ n < e
    · rw [if_pos (decide_eq_true hin)]
      omega
    · rw [if_neg (by rw [decide_eq_false hin]; decide)]
      omega

/-- A bitmap whose clear bits are an interval. -/
theorem mapRight_iff {map : Bitmap} {size inside free a e : ℕ} (he : e ≤ size) (hin : e ≤ inside)
    (h : ∀ i < size, map.isclr i = decide (a ≤ i ∧ i < e)) :
    MapRight map size inside free ↔ e - a = free := by
  have hcount : (List.range size).countP map.isclr = e - a := by
    have hcongr : (List.range size).countP map.isclr =
        (List.range size).countP fun i => decide (a ≤ i ∧ i < e) :=
      List.countP_congr fun i hi => by rw [h i (List.mem_range.1 hi)]
    rw [hcongr, countP_interval, Nat.min_eq_left he]
  refine ⟨fun hm => hcount ▸ hm.free, fun hfree => ⟨fun i hi hclr => ?_, hcount.trans hfree⟩⟩
  rw [h i hi, decide_eq_true_iff] at hclr
  omega

theorem Apart.groupEnd_eq (h : Apart p sb) {c : ℕ} (hc : c < sb.gcount) :
    sb.groupEnd c - sb.base c = sb.size c := by
  have hlast := h.last
  have hle := h.lastcg_le
  have hend : sb.groupEnd c = min (sb.base (c + 1)) sb.bcount := rfl
  rw [hend, sb.base_succ]
  unfold Sb.size
  by_cases hlastc : c = sb.gcount - 1
  · rw [if_pos hlastc, hlastc]
    omega
  · rw [if_neg hlastc]
    have hmono := sb.base_mono (c := c + 1) (d := sb.gcount - 1) (by omega)
    rw [sb.base_succ] at hmono
    omega

/-! ### The parts -/

/-- The descriptors, by their group. -/
theorem Shows.desc {vol : Volume} (h : Ready p sb) (hs : Shows p sb m vol) {c : ℕ}
    (hc : c < sb.gcount) :
    vol.gd[c]? = some (if c = 0 then m.desc p sb else descOf p sb c) := by
  by_cases h0 : c = 0
  · rw [if_pos h0, h0]
    exact hs.first h.gcount
  · rw [if_neg h0, hs.gd, List.getElem?_set_ne (Ne.symm h0), List.getElem?_map,
      List.getElem?_range hc]
    rfl

theorem sum_range_succ_map (f : ℕ → ℕ) (n : ℕ) :
    ((List.range (n + 1)).map f).sum = f 0 + ((List.range n).map fun c => f (c + 1)).sum := by
  rw [List.range_succ_eq_map, List.map_cons, List.sum_cons, List.map_map]
  rfl

/-- The totals are the sums. -/
theorem Shows.totals {vol : Volume} (h : Ready p sb) (hs : Shows p sb m vol)
    (hgiven : overhead p sb 0 + m.given ≤ sb.size 0) :
    vol.fbcount = (vol.gd.map fun d => d.nbfree).sum ∧
      vol.ficount = (vol.gd.map fun d => d.nifree).sum := by
  obtain ⟨n, hn⟩ : ∃ n, sb.gcount = n + 1 := ⟨sb.gcount - 1, by have := h.gcount; omega⟩
  have hfb := hs.fbcount
  have hfi := hs.ficount
  have hlost : m.lost.toNat ≤ 1 := by cases m.lost <;> decide
  have hipg := h.firstino
  have hgd : vol.gd = m.desc p sb :: (List.range n).map fun c => descOf p sb (c + 1) := by
    rw [hs.gd, hn, List.range_succ_eq_map, List.map_cons, List.set_cons_zero, List.map_map]
    rfl
  unfold Sb.allFree at hfb
  unfold Sb.allInodes at hfi
  rw [hn, sum_range_succ_map] at hfb hfi
  rw [hgd, List.map_cons, List.sum_cons, List.map_map, List.map_cons, List.sum_cons, List.map_map]
  constructor
  · show vol.fbcount = sb.size 0 - overhead p sb 0 - m.given +
      ((List.range n).map fun c => (gdOf p sb (c + 1)).nbfree).sum
    have hhead : (gdOf p sb 0).nbfree = sb.size 0 - overhead p sb 0 := rfl
    omega
  · show vol.ficount = sb.ipg - (FIRSTINO - 1) - m.lost.toNat +
      ((List.range n).map fun c => (gdOf p sb (c + 1)).nifree).sum
    have hhead : (gdOf p sb 0).nifree = sb.ipg - (FIRSTINO - 1) := rfl
    unfold FIRSTINO at *
    omega

/-- The inodes are where their numbers say. -/
theorem Shows.inode {vol : Volume} (h : Ready p sb) (hs : Shows p sb m vol) {ino : ℕ}
    (h0 : 0 < ino) (hino : ino ≤ FIRSTINO) : vol.inode p sb ino = m.node (ino - 1) := by
  have hipg := h.firstino
  obtain ⟨hblk, hslot, hsum⟩ := slot_lt (i := ino - 1) (n := sb.itpg) (k := p.ipb)
    (by rw [← h.ipg]; omega)
  obtain ⟨slots, hslots, hnode⟩ := hs.table _ hblk
  unfold Volume.inode
  rw [Nat.div_eq_of_lt (by omega), Nat.mod_eq_of_lt (by omega), hs.first h.gcount]
  show (vol.disk (bitmapAt p sb 0 + 1 + 1 + (ino - 1) / p.ipb)).slots _ = _
  rw [hslots]
  show slots _ = _
  rw [hnode _ hslot, hsum]

theorem mem_created {ino : ℕ} (h : ino ∈ created sb) :
    ino = Fsck.ROOTINO ∨ ino = LOSTFOUNDINO ∨ sb.resize = true ∧ ino = RESIZEINO := by
  unfold created at h
  split at h
  · next hres =>
    rcases List.mem_cons.1 h with h | h
    · exact .inl h
    · rcases List.mem_cons.1 h with h | h
      · exact .inr (.inl h)
      · exact .inr (.inr ⟨hres, List.mem_singleton.1 h⟩)
  · rcases List.mem_cons.1 h with h | h
    · exact .inl h
    · exact .inr (.inl (List.mem_singleton.1 h))

/-- **The blocks of a created inode** are some of those behind the metadata, and each has its place. -/
theorem Filled.owns {vol : Volume} (h : Ready p sb) (hf : Filled p sb m) (hs : Shows p sb m vol)
    {ino k b : ℕ} (ho : vol.Owns p sb ino k b) :
    ∃ i < m.given, b = dataBlock p sb i ∧
      ((ino = RESIZEINO ∧ k = NDADDR + 1 ∧ sb.resize = true ∧ i = 0) ∨
        (ino = LOSTFOUNDINO ∧ k < nblks_lostfound p ∧ i = sb.resize.toNat + k) ∨
          (ino = Fsck.ROOTINO ∧ k = 0 ∧ i = sb.resize.toNat + nblks_lostfound p)) := by
  obtain ⟨hmem, hk, hb, n, hn, hnk⟩ := ho
  have hgiven := hf.given
  rcases mem_created hmem with rfl | rfl | ⟨hres, rfl⟩
  · rw [hs.inode h (by decide) (by decide)] at hn
    obtain ⟨n', hn', -, hblocks⟩ := hf.root
    obtain rfl : n' = n := Option.some.inj (hn'.symm.trans hn)
    rw [hblocks] at hnk
    split at hnk
    · next h0 => exact ⟨_, by omega, hnk.symm, .inr (.inr ⟨rfl, h0, rfl⟩)⟩
    · exact absurd hnk.symm hb
  · rw [hs.inode h (by decide) (by decide)] at hn
    obtain ⟨n', hn', -, hblocks⟩ := hf.lostfound
    obtain rfl : n' = n := Option.some.inj (hn'.symm.trans hn)
    rw [hblocks] at hnk
    split at hnk
    · next hlt => exact ⟨_, by omega, hnk.symm, .inr (.inl ⟨rfl, hlt, rfl⟩)⟩
    · exact absurd hnk.symm hb
  · rw [hs.inode h (by decide) (by decide)] at hn
    obtain ⟨n', hn', -, hblocks⟩ := hf.resize hres
    obtain rfl : n' = n := Option.some.inj (hn'.symm.trans hn)
    rw [hblocks] at hnk
    split at hnk
    · next heq => exact ⟨0, by omega, hnk.symm, .inl ⟨rfl, heq, hres, rfl⟩⟩
    · exact absurd hnk.symm hb

theorem nblks_le (p : Params) : nblks_lostfound p ≤ 12 := Nat.min_le_right ..

/-- Each created inode has a block. -/
theorem Filled.owns_one {vol : Volume} (h : Ready p sb) (hf : Filled p sb m) (hs : Shows p sb m vol)
    {ino : ℕ} (hmem : ino ∈ created sb) : ∃ k b, vol.Owns p sb ino k b := by
  have hpos : ∀ i, dataBlock p sb i ≠ 0 := fun i => by
    unfold dataBlock overhead
    omega
  have hn := nblks_pos h.sizes
  rcases mem_created hmem with rfl | rfl | ⟨hres, rfl⟩
  · obtain ⟨n, hn', -, hblocks⟩ := hf.root
    exact ⟨0, _, hmem, by decide, hpos _, n, (hs.inode h (by decide) (by decide)).trans hn',
      (hblocks 0).trans (if_pos rfl)⟩
  · obtain ⟨n, hn', -, hblocks⟩ := hf.lostfound
    exact ⟨0, _, hmem, by decide, hpos _, n, (hs.inode h (by decide) (by decide)).trans hn',
      (hblocks 0).trans (if_pos hn)⟩
  · obtain ⟨n, hn', -, hblocks⟩ := hf.resize hres
    exact ⟨NDADDR + 1, _, hmem, by decide, hpos _, n, (hs.inode h (by decide) (by decide)).trans hn',
      (hblocks _).trans (if_pos rfl)⟩

/-- The directories are those of the first group. -/
theorem Filled.dirsIn {vol : Volume} (h : Ready p sb) (hf : Filled p sb m) (hs : Shows p sb m vol)
    (c : ℕ) : vol.dirsIn p sb c = if c = 0 then 2 else 0 := by
  have hipg := h.firstino
  have hfirst : ∀ ino ∈ created sb, (ino - 1) / sb.ipg = 0 := fun ino hmem => by
    refine Nat.div_eq_of_lt ?_
    unfold FIRSTINO at hipg
    rcases mem_created hmem with rfl | rfl | ⟨-, rfl⟩
    · unfold Fsck.ROOTINO
      omega
    · unfold LOSTFOUNDINO FIRSTINO
      omega
    · unfold RESIZEINO
      omega
  obtain ⟨nr, hnr, hmr, -⟩ := hf.root
  obtain ⟨nl, hnl, hml, -⟩ := hf.lostfound
  have hroot : vol.inode p sb Fsck.ROOTINO = some nr := (hs.inode h (by decide) (by decide)).trans hnr
  have hlost : vol.inode p sb LOSTFOUNDINO = some nl :=
    (hs.inode h (by decide) (by decide)).trans hnl
  have hdir : nr.e2di_mode &&& IFMT = IFDIR ∧ nl.e2di_mode &&& IFMT = IFDIR := by
    rw [hmr, hml]
    decide
  by_cases h0 : c = 0
  · rw [if_pos h0, h0]
    have hcount : vol.dirsIn p sb 0 = (created sb).countP fun ino =>
        (vol.inode p sb ino).any fun n => decide (n.e2di_mode &&& IFMT = IFDIR) := by
      refine List.countP_congr fun ino hmem => ?_
      rw [decide_eq_true (hfirst ino hmem), Bool.true_and]
    rw [hcount]
    unfold created
    by_cases hres : sb.resize = true
    · obtain ⟨n, hn, hmn, -⟩ := hf.resize hres
      have hresize : vol.inode p sb RESIZEINO = some n := (hs.inode h (by decide) (by decide)).trans hn
      have hfile : ¬n.e2di_mode &&& IFMT = IFDIR := by
        rw [hmn]
        decide
      rw [if_pos hres]
      simp [hroot, hlost, hresize, hdir, hfile]
    · rw [if_neg hres]
      simp [hroot, hlost, hdir]
  · rw [if_neg h0]
    refine List.countP_eq_zero.2 fun ino hmem => ?_
    rw [decide_eq_false (by rw [hfirst ino hmem]; exact Ne.symm h0), Bool.false_and]
    exact Bool.false_ne_true

/-- The blocks of the first inodes lie behind the metadata of the first group. -/
theorem Filled.inside {vol : Volume} (h : Ready p sb) (hf : Filled p sb m) (hs : Shows p sb m vol)
    {ino k b : ℕ} (ho : vol.Owns p sb ino k b) :
    b < sb.groupEnd 0 ∧ ∀ d, vol.gd[0]? = some d → d.i_tables + sb.itpg ≤ b := by
  obtain ⟨i, hi, rfl, -⟩ := hf.owns h hs ho
  have hend := h.toApart.groupEnd_eq h.gcount
  have hroom := hf.room
  have hat := h.toFits.bitmapAt_le 0
  refine ⟨?_, fun d hd => ?_⟩
  · unfold dataBlock
    omega
  · rw [hs.desc h h.gcount, if_pos rfl] at hd
    rw [← Option.some.inj hd]
    show bitmapAt p sb 0 + 1 + 1 + sb.itpg ≤ dataBlock p sb i
    unfold dataBlock
    omega

/-- No block has two owners. -/
theorem Filled.distinct {vol : Volume} (h : Ready p sb) (hf : Filled p sb m) (hs : Shows p sb m vol)
    {ino k ino' k' b : ℕ} (ho : vol.Owns p sb ino k b) (ho' : vol.Owns p sb ino' k' b) :
    ino = ino' ∧ k = k' := by
  obtain ⟨i, hi, hb, hcase⟩ := hf.owns h hs ho
  obtain ⟨i', hi', hb', hcase'⟩ := hf.owns h hs ho'
  have hii : i = i' := by
    unfold dataBlock at hb hb'
    omega
  have hn := nblks_pos h.sizes
  -- the places of the three inodes do not meet
  rcases hcase with ⟨rfl, hk, hres, hz⟩ | ⟨rfl, hk, hz⟩ | ⟨rfl, hk, hz⟩ <;>
    rcases hcase' with ⟨rfl, hk', hres', hz'⟩ | ⟨rfl, hk', hz'⟩ | ⟨rfl, hk', hz'⟩
  · exact ⟨rfl, hk.trans hk'.symm⟩
  · rw [hres, Bool.toNat_true] at hz'
    omega
  · rw [hres, Bool.toNat_true] at hz'
    omega
  · rw [hres', Bool.toNat_true] at hz
    omega
  · exact ⟨rfl, by omega⟩
  · omega
  · rw [hres', Bool.toNat_true] at hz
    omega
  · omega
  · exact ⟨rfl, hk.trans hk'.symm⟩

/-- A right map of the first inodes has no padding in a byte with an inode. -/
theorem Shows.ipg_dvd {vol : Volume} (h : Ready p sb) (hf : Filled p sb m) (hs : Shows p sb m vol)
    (hr : MapsRight p sb vol) : NBBY ∣ sb.ipg := by
  have hipg := h.firstino
  have hinodes := h.inodes
  obtain ⟨imap, himap, hiclr⟩ := hs.i_bitmap
  have hfour : 4 ∣ sb.ipg := by
    rw [h.ipg]
    refine Dvd.dvd.mul_left ?_ _
    rcases h.sizes.ipb with hi | hi | hi | hi <;> rw [hi] <;> decide
  obtain ⟨d, hd, -, ⟨map, hmap, hright⟩, -⟩ := hr.group 0 h.gcount
  rw [hs.desc h h.gcount, if_pos rfl] at hd
  obtain rfl := Option.some.inj hd
  have hsame : map = imap := Data.bitmap.inj (hmap.symm.trans himap)
  rw [hsame] at hright
  have hcount := (mapRight_iff (by unfold NBBY at *; omega) (by unfold NBBY; omega) hiclr).1 hright
  rw [hf.lost] at hcount
  have hfree : (m.desc p sb).nifree = sb.ipg - (FIRSTINO - 1) - 1 := by
    unfold Made.desc
    rw [hf.lost]
    rfl
  rw [hfree, Bool.toNat_true] at hcount
  unfold NBBY FIRSTINO at *
  omega

/-- **What a run leaves is right exactly when the inodes of a group fill whole bytes.** -/
theorem Shows.right_iff {vol : Volume} (h : Ready p sb) (hf : Filled p sb m) (hs : Shows p sb m vol)
    (hsuper : vol.disk (sb.base 0) = .super 0 vol.fbcount vol.ficount)
    (hdescs : ∀ k < sb.gdbcount, vol.disk (sb.base 0 + 1 + k) = .descs k vol.gd) :
    MapsRight p sb vol ↔ NBBY ∣ sb.ipg := by
  refine ⟨hs.ipg_dvd h hf, fun hdvd => ?_⟩
  have hipg := h.firstino
  have hbpg : sb.bpg = 8 * p.bsize := h.bpg.trans (Nat.mul_comm ..)
  have hinodes := h.inodes
  obtain ⟨imap, himap, hiclr⟩ := hs.i_bitmap
  have hbytes : NBBY * (sb.ipg / NBBY) = sb.ipg := Nat.mul_div_cancel' hdvd
  have htotals := hs.totals h hf.room
  refine ⟨fun c hc => ⟨_, hs.desc h hc, ?_, ?_, ?_⟩, htotals.1, htotals.2, hsuper, hdescs,
    fun ino hmem => hf.owns_one h hs hmem, fun _ _ _ ho => hf.inside h hs ho,
    fun _ _ _ _ _ ho ho' => hf.distinct h hs ho ho'⟩
  · rw [h.toApart.groupEnd_eq hc]
    have hsize := h.size_le c
    by_cases h0 : c = 0
    · rw [if_pos h0, h0]
      obtain ⟨map, hmap, hclr⟩ := hs.b_bitmap
      refine ⟨map, hmap, (mapRight_iff (by rw [← hbpg]; exact h0 ▸ hsize) le_rfl hclr).2 ?_⟩
      show _ = sb.size 0 - overhead p sb 0 - m.given
      omega
    · rw [if_neg h0]
      have hon := hs.others c (by omega) hc
      refine ⟨_, hon.b_bitmap, (mapRight_iff (by rw [← hbpg]; exact hsize) le_rfl fun i hi =>
        isclr_blockMap h.toApart hc hi).2 rfl⟩
  · by_cases h0 : c = 0
    · rw [if_pos h0]
      refine ⟨imap, himap, (mapRight_iff (by unfold NBBY at *; omega) (by omega) hiclr).2 ?_⟩
      show _ = sb.ipg - (FIRSTINO - 1) - m.lost.toNat
      omega
    · rw [if_neg h0]
      have hon := hs.others c (by omega) hc
      refine ⟨_, hon.i_bitmap, (mapRight_iff (a := 0) (e := sb.ipg)
        (by unfold NBBY at *; omega) le_rfl fun i hi => ?_).2 ?_⟩
      · rw [isclr_inodeMap h.inodes hi, hbytes]
        exact decide_eq_decide.2 ⟨fun hc => ⟨Nat.zero_le _, hc.2⟩, fun hc => ⟨fun hz => absurd hz h0, hc.2⟩⟩
      · show sb.ipg - 0 = if c = 0 then sb.ipg - (FIRSTINO - 1) else sb.ipg
        rw [if_neg h0]
        rfl
  · rw [hf.dirsIn h hs]
    by_cases h0 : c = 0
    · rw [if_pos h0, if_pos h0]
      exact hf.dirs
    · rw [if_neg h0, if_neg h0]
      rfl

end

/-! ### The maps of the groups -/

section

variable {o : Options}

/-- **A right layout is one that `fsinit` can rely on.** -/
theorem LayoutRight.ready (hv : o.Valid) (ha : Accepts (main o).value) (hr : LayoutRight o) :
    (main o).value = o.params ∧
      (newfs o).value = (o.params.finalSb, totalsOf o.params o.params.finalSb o.params.groups) ∧
        Ready o.params o.params.finalSb := by
  have h : Sizes o.params := ha.params.sizes hv.inodesize hv.minfree
  obtain ⟨hexact, hvalue⟩ := newfs_yields hv ha
  have hcond := hexact.1 hr.exact
  have he := hcond.2
  have hv' := hvalue hcond
  have hmain : (main o).value = o.params := by
    have hboth : ((main o).exact && (mke2fs (main o).value).exact) = true := hr.exact
    rw [Bool.and_eq_true] at hboth
    exact main_yields.value_eq (main_yields.exact_iff.1 hboth.1)
  refine ⟨hmain, hv', he.apart h ha.params.sectors, ?_, ?_, ?_, ?_, ?_, ?_, ?_, ?_⟩
  all_goals
    obtain ⟨hgc, hbpg, hlast, hipg, hitpg, hgd, hfirst, hbc, hrb⟩ := finalSb_fields (p := o.params)
    have hrange := hr.ipg
    rw [hv'] at hrange
  · rw [hipg, hitpg]
    refine (Nat.div_mul_cancel ?_).symm
    unfold Params.ipg roundUp
    generalize o.params.inodes / o.params.groups = q
    rcases h.ipb with hi | hi | hi | hi <;> rw [hi] <;> split <;> omega
  · exact hrange.1
  · exact (he.descriptors 0 he.groups).1.ipg
  · exact (he.descriptors 0 he.groups).1.nbfree
  · have hlt := (he.descriptors (o.params.groups - 1) (by have := he.groups; omega)).2.1
    rw [Nat.sub_add_cancel he.groups] at hlt
    unfold Sb.allFree
    rw [hgc]
    exact hlt
  · have hlt := (he.descriptors (o.params.groups - 1) (by have := he.groups; omega)).2.2
    rw [Nat.sub_add_cancel he.groups] at hlt
    unfold Sb.allInodes
    rw [hgc]
    exact hlt
  · rw [hipg, hgc]
    exact he.icount
  · have hle : o.params.finalSb.ipg ≤ 8 * o.params.bsize := hrange.2
    unfold NBBY
    omega

/-- The memory before the first write. -/
theorem upto_blank (hv' : (newfs o).value =
    (o.params.finalSb, totalsOf o.params o.params.finalSb o.params.groups)) :
    Upto o.params o.params.finalSb 0 (blank (newfs o).value.2) := by
  obtain ⟨hgc, -⟩ := finalSb_fields (p := o.params)
  rw [hv']
  refine ⟨?_, ?_, ?_, fun d hd => absurd hd (Nat.not_lt_zero d),
    fun d hd => absurd hd (Nat.not_lt_zero d), fun h0 => absurd h0 (Nat.lt_irrefl 0)⟩
  · rw [hgc]
    exact List.map_map
  · rw [hgc]
    rfl
  · rw [hgc]
    rfl

/-- What `newfs_ext2fs` writes for the options. -/
def image (raw : Data → Bitmap) (o : Options) : Option Unit × Volume :=
  make raw (main o).value (newfs o).value.1 (newfs o).value.2

/-- What a run leaves, for a right layout. -/
theorem image_leaves {raw : Data → Bitmap} (hv : o.Valid) (ha : Accepts (main o).value)
    (hr : LayoutRight o) {vol : Volume} (hrun : image raw o = (some (), vol)) :
    Ready (main o).value (newfs o).value.1 ∧ ∃ m, Filled (main o).value (newfs o).value.1 m ∧
      Shows (main o).value (newfs o).value.1 m vol ∧
        vol.disk ((newfs o).value.1.base 0) = .super 0 vol.fbcount vol.ficount ∧
          ∀ k < (newfs o).value.1.gdbcount,
            vol.disk ((newfs o).value.1.base 0 + 1 + k) = .descs k vol.gd := by
  obtain ⟨hmain, hv', hready⟩ := hr.ready hv ha
  unfold image make at hrun
  rw [hmain] at hrun ⊢
  have hblank := upto_blank hv'
  rw [hv'] at hrun hblank ⊢
  exact ⟨hready, (make_meets hready).run hblank hrun⟩

/-- **When the volume is right**: for every layout that is, and every run that comes to its end, exactly
when the inodes of a group are a multiple of 8. -/
theorem maps_right_iff (raw : Data → Bitmap) (o : Options) (hv : o.Valid)
    (ha : Accepts (main o).value) (hr : LayoutRight o) (vol : Volume)
    (hrun : image raw o = (some (), vol)) :
    MapsRight (main o).value (newfs o).value.1 vol ↔ NBBY ∣ (newfs o).value.1.ipg := by
  obtain ⟨hready, m, hfill, hs, hsuper, hdescs⟩ := image_leaves hv ha hr hrun
  exact hs.right_iff hready hfill hsuper hdescs

end

/-- A volume of 40 blocks of 1 KiB, with inodes of 256 bytes. -/
def tinyImage (num_inodes : ℕ) : Options where
  fssize := 80
  sectorsize := 512
  bsize := 1024
  fsize := 0
  inodesize := 256
  num_inodes := num_inodes
  density := 0
  minfree := 5
  oflag := true

theorem tinyImage_accepted {n : ℕ} (hn : n = 24 ∨ n = 20) :
    (tinyImage n).Valid ∧ Accepts (main (tinyImage n)).value := by
  rcases hn with rfl | rfl <;>
    exact ⟨⟨by decide, .inr rfl, by decide, by decide, by decide⟩, by decide, by decide, by decide,
      by decide, by decide, by decide, by decide, by decide +kernel⟩

/-- With 24 and with 20 inodes the layout is right. -/
theorem tinyImage_layout {n : ℕ} (hn : n = 24 ∨ n = 20) : LayoutRight (tinyImage n) := by
  obtain ⟨hv, ha⟩ := tinyImage_accepted hn
  refine (layout_iff _ hv ha).2 ⟨fun _ h => absurd rfl h, ?_⟩
  rcases hn with rfl | rfl <;>
    exact ⟨by decide +kernel, by decide +kernel, by decide +kernel, by decide +kernel,
      by decide +kernel⟩

theorem run_eq {x : Option Unit × Volume} (h : x.1 = some ()) : x = (some (), x.2) :=
  Prod.ext h rfl

/-- With 24 inodes the volume is right. -/
theorem tinyImage_right : MapsRight (main (tinyImage 24)).value (newfs (tinyImage 24)).value.1
    (image (fun _ _ => 0) (tinyImage 24)).2 := by
  obtain ⟨hv, ha⟩ := tinyImage_accepted (.inl rfl)
  have hdone : (image (fun _ _ => 0) (tinyImage 24)).1 = some () := by decide +kernel
  exact (maps_right_iff _ (tinyImage 24) hv ha (tinyImage_layout (.inl rfl)) _ (run_eq hdone)).2
    (by decide +kernel)

/-- **With 20 inodes** it is not: the last four have no clear bits. -/
theorem odd_inodes_wrong :
    ((tinyImage 20).Valid ∧ Accepts (main (tinyImage 20)).value ∧ LayoutRight (tinyImage 20)) ∧
      (image (fun _ _ => 0) (tinyImage 20)).1 = some () ∧
        ¬MapsRight (main (tinyImage 20)).value (newfs (tinyImage 20)).value.1
          (image (fun _ _ => 0) (tinyImage 20)).2 := by
  obtain ⟨hv, ha⟩ := tinyImage_accepted (.inr rfl)
  have hr := tinyImage_layout (.inr rfl)
  have hdone : (image (fun _ _ => 0) (tinyImage 20)).1 = some () := by decide +kernel
  refine ⟨⟨hv, ha, hr⟩, hdone, fun hright => ?_⟩
  obtain ⟨hready, m, hfill, hs, hsuper, hdescs⟩ := image_leaves hv ha hr (run_eq hdone)
  exact absurd ((hs.right_iff hready hfill hsuper hdescs).1 hright) (by decide +kernel)

end Ext2fs.Newfs
