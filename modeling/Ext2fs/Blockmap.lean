import Ext2fs.MetaBuf

/-!
# Byte ranges to device blocks: `ext2_blockmap`

`ext2_blockmap` turns a byte offset into a device block and the number of bytes that lie behind each
other on the device from there on.  It counts the run in file system blocks, as `ext2_bmaparray` reports
it, and trims it to what was asked for and to the end of the file.

* `seqRun_spec` — a run of pointers is sequential and stays in its array;
* `bmapWalk_run`, `ext2Bmaparray_run` — the blocks of a run are mapped one behind the other;
* `blockmapRight_iff_of` — from a sequential run of blocks to the sectors of a range of bytes;
* `blockmap_right_iff` — **the result is right** unless a direct pointer loses bits in the 32-bit shift,
  an extent is taken for a block it does not cover, or a size is negative as an `off_t`.
-/

namespace Ext2fs

open PtrTree

/-! ### The function -/

/-- The conversion to `off_t`. -/
def offT (x : ℕ) : ℤ := Int.bmod x (2 ^ 64)

/-- `struct vnop_blockmap_args`: what is asked for, and which of the results the caller has a place
for. -/
structure BlockmapArgs where
  foffset : ℕ
  size : ℕ
  bpn : Bool
  poff : Bool
  run : Bool

/-- What is stored at `a_bpn`, `a_poff` and `a_run`. -/
structure BlockmapResult where
  bpn : Option ℤ
  poff : Option ℤ
  run : Option ℕ
  deriving DecidableEq

section

variable (fs : MExt2fs) (read : ℤ → Bool) (readcnt : ℕ) (extents : Bool) (w : World)

/-- The call of `ext4_bmapext` or `ext2_bmaparray` on behalf of `ext2_blockmap`: the device block and
the run behind it.  `readcnt` is `io_maxreadcnt`, what the device accepts in one read. -/
def bmapRun (lbn : ℕ) : Except Errno (ℤ × ℕ) :=
  if extents then (ext4Bmapext fs read w lbn).map fun bn => (bn, 0)
  else ext2Bmaparray fs (w.bread read) w.ip (some (readcnt / fs.bsize - 1)) lbn

/-- The bytes `ext2_blockmap` reports: to the end of the span, of what was asked for and of the file,
whichever comes first. -/
def contig (ap : BlockmapArgs) (run : ℕ) : ℤ :=
  let contig : ℤ := ((run : ℤ) + 1) * fs.bsize - fs.blkoff ap.foffset
  let contig := if offT ap.size < contig then offT ap.size else contig
  let contig := if offT w.ip.size < ap.foffset + contig then offT w.ip.size - ap.foffset else contig
  if contig < 0 then 0 else contig

/-- `ext2_blockmap`; `extents` is the bit `IN_E4EXTENTS` of `i_flag`. -/
def ext2Blockmap (ap : BlockmapArgs) : Except Errno BlockmapResult :=
  if !ap.bpn then .ok ⟨none, none, none⟩
  else
    match bmapRun fs read readcnt extents w (fs.lblkno ap.foffset) with
    | .error e => .error e
    | .ok (bn, run) =>
        let poff := if ap.poff then some 0 else none
        -- a hole: no device blocks back this offset
        if bn < 0 then .ok ⟨some (-1), poff, if ap.run then some 0 else none⟩
        else .ok ⟨some (bn + (fs.blkoff ap.foffset / 512 : ℕ)), poff,
          if ap.run then some (contig fs w ap run).toNat else none⟩

/-! ### What its callers rely on -/

/-- The block map has logical block `lbn` at block `p`. -/
def World.BlockAt (lbn p : ℕ) : Prop :=
  if extents then w.ExtMaps fs lbn p else w.map fs lbn = p ∧ p ≠ 0

/-- The block map places sector `s` of the file at device sector `a`. -/
def World.SectorAt (s : ℕ) (a : ℤ) : Prop :=
  ∃ p : ℕ, w.BlockAt fs extents (s / 2 ^ fs.bptrtodb) p ∧ a = fs.fsbtodb p + (s % 2 ^ fs.bptrtodb : ℕ)

/-- A hole is reported only where the block map has no block, and otherwise a run of at least a byte
that keeps to what was asked for and to the file, all of whose sectors are where the result says. -/
def BlockmapRight (ap : BlockmapArgs) (r : BlockmapResult) : Prop :=
  ∀ bpn run, r.bpn = some bpn → r.run = some run →
    if bpn = -1 then ¬∃ p, w.BlockAt fs extents (fs.lblkno ap.foffset) p
    else 1 ≤ run ∧ run ≤ ap.size ∧ ap.foffset + run ≤ w.ip.size ∧
      ∀ k, 512 * k < run → w.SectorAt fs extents (ap.foffset / 512 + k) (bpn + k)

/-- The sizes as the trimming reads them: something is asked for, and the offset is in the file. -/
def BlockmapTrims (ap : BlockmapArgs) : Prop := 0 < offT ap.size ∧ ap.foffset < offT w.ip.size

/-- The search for a block that no extent covers ends at an entry whose numbers put the block at or
before block 0, as the header does that a search in front of all entries ends at. -/
def World.EndsBelow (lbn : ℕ) : Prop :=
  ∃ leaf ep, ext4ExtFindExtent fs read w lbn = some ⟨leaf, some ep⟩ ∧
    lbn + (w.node fs leaf).start ep ≤ (w.node fs leaf).blk ep

/-- When the result is right: for extents the block is covered, and not at block 0, or the search ends
below; for pointers a direct one does not lose bits; and where a block is mapped the sizes are good. -/
def BlockmapCond (ap : BlockmapArgs) : Prop :=
  let lbn := fs.lblkno ap.foffset
  if extents then
    (∃ p, p ≠ 0 ∧ w.ExtMaps fs lbn p) ∧ BlockmapTrims w ap ∨
      ¬w.ExtCovered fs lbn ∧ w.EndsBelow fs read lbn
  else
    (lbn < 12 → w.ip.db lbn * 2 ^ fs.bptrtodb < 2 ^ 32) ∧ (w.map fs lbn ≠ 0 → BlockmapTrims w ap)

end

/-! ### Runs of blocks -/

/-- The pointers of a run follow each other, and all but the first are tested to be in the array. -/
theorem seqRun_spec {bap : ℕ → ℕ} {limit : ℕ} (maxrun i : ℕ) :
    ∀ j ≤ seqRun bap limit maxrun (i + 1), bap (i + j) = bap i + j ∧ (0 < j → i + j < limit) := by
  induction maxrun generalizing i with
  | zero =>
    intro j hj
    obtain rfl : j = 0 := Nat.le_zero.1 hj
    exact ⟨rfl, fun h => absurd h (lt_irrefl 0)⟩
  | succ maxrun ih =>
    intro j hj
    rw [seqRun] at hj
    cases j with
    | zero => exact ⟨rfl, fun h => absurd h (lt_irrefl 0)⟩
    | succ j =>
      split at hj
      · next hstep =>
        obtain ⟨hval, hlt⟩ := ih (i + 1) j (Nat.le_of_succ_le_succ hj)
        have hseq : bap (i + 1) = bap i + 1 := hstep.2
        rw [show i + (j + 1) = i + 1 + j by omega]
        refine ⟨by omega, fun _ => ?_⟩
        rcases Nat.eq_zero_or_pos j with rfl | hpos
        · exact hstep.1
        · exact hlt hpos
      · omega

section

variable {fs : MExt2fs} {read : ℤ → Bool} {readcnt : ℕ} {extents : Bool} {w : World} {lbn run : ℕ}

/-- The run in the last block of pointers. -/
theorem lookup_leaf_run {maxrun daddr i j : ℕ} (hd : daddr ≠ 0) (hi : i < fs.nindir)
    (hj : j ≤ seqRun (w.store fs daddr) fs.nindir maxrun (i + 1)) :
    i + j < fs.nindir ∧ lookup fs.nindir (w.store fs) (0 + 1) daddr (i + j) = w.store fs daddr i + j := by
  obtain ⟨hval, hlt⟩ := seqRun_spec maxrun i j hj
  refine ⟨?_, ?_⟩
  · rcases Nat.eq_zero_or_pos j with rfl | hpos
    · exact hi
    · exact hlt hpos
  · rw [lookup, if_neg hd, pow_zero, Nat.div_one, lookup]
    exact hval

/-- **The run of a walk.**  Where the walk finds a block, the blocks of the run behind it are those of the
next offsets of the same tree. -/
theorem bmapWalk_run {maxrun : ℕ} {bn : ℤ} (hbn : 0 ≤ bn) :
    ∀ (k : ℕ) (path : List Indir) (off daddr d : ℕ), path.map Indir.off = digits fs.nindir k off →
      (∀ a ∈ path, a.lbn < 0) → off < fs.nindir ^ k →
      bmapWalk fs (w.bread read) (some maxrun) bn path daddr 0 = .ok (d, run) →
      d = lookup fs.nindir (w.store fs) k daddr off ∧
        (d ≠ 0 → ∀ j ≤ run, off + j < fs.nindir ^ k ∧
          lookup fs.nindir (w.store fs) k daddr (off + j) = d + j) := by
  intro k
  induction k with
  | zero =>
    intro path off daddr d hdig _ hoff hwalk
    have hnil : path = [] := by simpa [digits] using hdig
    rw [hnil, bmapWalk] at hwalk
    cases hwalk
    refine ⟨rfl, fun _ j hj => ?_⟩
    obtain rfl : j = 0 := Nat.le_zero.1 hj
    exact ⟨hoff, rfl⟩
  | succ k ih =>
    intro path off daddr d hdig hneg hoff hwalk
    cases path with
    | nil => simp [digits] at hdig
    | cons ap rest =>
      simp only [List.map_cons, digits, List.cons.injEq] at hdig
      have hap : ap.lbn ≠ bn := by
        have := hneg ap List.mem_cons_self
        omega
      have hidx : ap.off < fs.nindir := hdig.1 ▸ div_lt_of_lt_pow fs.nindir_pos hoff
      have hmod : off % fs.nindir ^ k < fs.nindir ^ k := Nat.mod_lt _ (pow_pos fs.nindir_pos k)
      by_cases hd : daddr = 0
      · rw [bmapWalk, if_pos (Or.inl hd)] at hwalk
        cases hwalk
        exact ⟨by rw [hd, lookup_null], fun h => absurd hd h⟩
      · have hcond : ¬(daddr = 0 ∨ ap.lbn = bn) := by simp [hd, hap]
        rw [bmapWalk, if_neg hcond] at hwalk
        cases hread : w.bread read (fs.fsbtodb daddr) with
        | error e => rw [hread] at hwalk; exact absurd hwalk (by simp)
        | ok bap =>
          rw [hread] at hwalk
          have hbap : bap = w.store fs daddr := by
            unfold World.bread at hread
            split at hread
            · cases hread; rfl
            · cases hread
          subst hbap
          dsimp only at hwalk
          have hoffk : off = ap.off * fs.nindir ^ k + off % fs.nindir ^ k := by
            rw [hdig.1, mul_comm, Nat.div_add_mod]
          -- an offset of the run is in the same child as long as the child has room for it
          have hchild : ∀ j, off % fs.nindir ^ k + j < fs.nindir ^ k → off + j < fs.nindir ^ (k + 1) ∧
              lookup fs.nindir (w.store fs) (k + 1) daddr (off + j) =
                lookup fs.nindir (w.store fs) k (w.store fs daddr ap.off)
                  (off % fs.nindir ^ k + j) := by
            intro j hj
            have hsplit : off + j = ap.off * fs.nindir ^ k + (off % fs.nindir ^ k + j) := by omega
            rw [hsplit, lookup_add hd hj, pow_succ]
            exact ⟨by nlinarith, rfl⟩
          have hfirst := (hchild 0 hmod).2
          simp only [Nat.add_zero] at hfirst
          rw [hfirst]
          cases k with
          | zero =>
            have hnil : rest = [] := by simpa [digits] using hdig.2
            rw [hnil, bmapWalk] at hwalk
            simp only [List.isEmpty_nil, true_and, Except.ok.injEq, Prod.mk.injEq] at hwalk
            obtain ⟨hd', hrun⟩ := hwalk
            refine ⟨hd'.symm, fun hne j hj => ?_⟩
            rw [if_pos (hd' ▸ hne)] at hrun
            have hoff' : off = ap.off := by rw [hdig.1, pow_zero, Nat.div_one]
            obtain ⟨hlt, hval⟩ := lookup_leaf_run hd hidx (hrun ▸ hj)
            rw [hoff', hval, hd']
            exact ⟨by simpa using hlt, rfl⟩
          | succ k =>
            have hcons : rest.isEmpty = false := by
              cases rest with
              | nil => simp [digits] at hdig
              | cons => rfl
            simp only [hcons, Bool.false_eq_true, false_and, if_false] at hwalk
            obtain ⟨hval, hall⟩ := ih rest _ _ d hdig.2 (fun a ha => hneg a (List.mem_cons_of_mem _ ha))
              hmod hwalk
            refine ⟨hval, fun hne j hj => ?_⟩
            obtain ⟨hlt, hlook⟩ := hall hne j hj
            obtain ⟨hlt', hlook'⟩ := hchild j hlt
            exact ⟨hlt', hlook'.trans hlook⟩

/-- **The run of `ext2_bmaparray`.**  The address is that of the mapped block, but for the shift of a
direct pointer, and the blocks of the run are mapped one behind the other. -/
theorem ext2Bmaparray_run {maxrun : ℕ} {bn : ℤ}
    (h : ext2Bmaparray fs (w.bread read) w.ip (some maxrun) lbn = .ok (bn, run)) :
    bn = (if w.map fs lbn = 0 then -1
        else if lbn < 12 then
          (if fs.blkptrtodb32 (w.map fs lbn) = 0 then -1 else (fs.blkptrtodb32 (w.map fs lbn) : ℤ))
        else fs.fsbtodb (w.map fs lbn)) ∧
      (w.map fs lbn ≠ 0 → 0 ≤ bn → ∀ j ≤ run, w.map fs (lbn + j) = w.map fs lbn + j) := by
  by_cases hlbn : lbn < 12
  · simp only [ext2Bmaparray, getlbns_direct hlbn, Int.toNat_natCast] at h
    rw [map_direct fs hlbn]
    have hnull : w.ip.db lbn = 0 → fs.blkptrtodb32 (w.ip.db lbn) = 0 := by
      intro h0
      rw [MExt2fs.blkptrtodb32, h0, Nat.zero_mul, Nat.zero_mod]
    split at h
    · next hz =>
      cases h
      refine ⟨?_, fun _ hneg => absurd hneg (by decide)⟩
      rw [if_pos hlbn, if_pos hz, ite_self]
    · next hz =>
      cases h
      refine ⟨?_, fun _ _ j hj => ?_⟩
      · rw [if_neg (fun h0 => hz (hnull h0)), if_pos hlbn, if_neg hz]
      · obtain ⟨hval, hlt⟩ := seqRun_spec maxrun lbn j hj
        rcases Nat.eq_zero_or_pos j with rfl | hpos
        · exact map_direct fs hlbn w
        · rw [map_direct fs (hlt hpos), hval]
  · cases hl : locate fs.nindir lbn with
    | none =>
      rw [ext2Bmaparray, getlbns_efbig fs.nindir_lt (locate_eq_none.1 hl)] at h
      cases h
    | some ro =>
      obtain ⟨r, off⟩ := ro
      obtain ⟨hr, hoff, hbase⟩ := locate_eq_some.1 hl
      have hr12 : 12 ≤ r := by
        by_contra hc
        have hc' : r < 12 := by omega
        simp only [height_direct hc', pow_zero, base_direct hc'] at hoff hbase
        omega
      obtain ⟨ap, path, hget, hap, hdig, hneg⟩ := getlbns_path fs.nindir_pos fs.nindir_lt hl hr12
      have hslot : w.ip.slot r = w.ip.ib ap.off := by
        rw [hap]
        exact if_neg (by unfold NDADDR; omega)
      simp only [ext2Bmaparray, hget] at h
      cases hwalk : bmapWalk fs (w.bread read) (some maxrun) lbn path (w.ip.ib ap.off) 0 with
      | error e => rw [hwalk] at h; cases h
      | ok res =>
        obtain ⟨d, run'⟩ := res
        rw [hwalk] at h
        simp only [Except.ok.injEq, Prod.mk.injEq] at h
        obtain ⟨hbn, rfl⟩ := h
        obtain ⟨hd, hall⟩ := bmapWalk_run (Int.natCast_nonneg lbn) (height r) path off _ d hdig hneg hoff
          hwalk
        have hmap : ∀ o < fs.nindir ^ height r, w.map fs (base fs.nindir r + o) =
            lookup fs.nindir (w.store fs) (height r) (w.ip.ib ap.off) o := by
          intro o ho
          rw [World.map, blockMap_base hr ho, hslot]
        rw [hbase, hmap off hoff, ← hd, ← hbase]
        refine ⟨?_, fun hne _ j hj => ?_⟩
        · rw [← hbn, if_neg hlbn]
          simp only [MExt2fs.fsbtodb_eq_zero, Nat.cast_eq_zero]
        · obtain ⟨hlt, hlook⟩ := hall hne j hj
          rw [hbase, Nat.add_assoc, hmap _ hlt, hlook]

/-! ### From blocks to bytes -/

theorem offT_le (x : ℕ) : offT x ≤ x := by
  unfold offT
  rw [Int.bmod_def]
  split <;> omega

theorem MExt2fs.bsize_eq (fs : MExt2fs) : fs.bsize = 512 * 2 ^ fs.bptrtodb := by
  unfold bsize bshift bptrtodb
  rw [show 10 + fs.logBsize = 9 + (fs.logBsize + 1) by omega, pow_add]
  norm_num

/-- The run is positive exactly if the sizes are good, and then it keeps to all three bounds. -/
theorem contig_spec (ap : BlockmapArgs) (run : ℕ) :
    (0 < contig fs w ap run ↔ BlockmapTrims w ap) ∧
      (0 < contig fs w ap run →
        contig fs w ap run + fs.blkoff ap.foffset ≤ ((run : ℤ) + 1) * fs.bsize ∧
        contig fs w ap run ≤ offT ap.size ∧ ap.foffset + contig fs w ap run ≤ offT w.ip.size) := by
  have hoff : fs.blkoff ap.foffset < fs.bsize := Nat.mod_lt _ fs.bsize_pos
  have hspan : (fs.bsize : ℤ) ≤ ((run : ℤ) + 1) * fs.bsize := by nlinarith [fs.bsize_pos]
  unfold contig BlockmapTrims
  generalize ((run : ℤ) + 1) * fs.bsize = span at hspan ⊢
  dsimp only
  split_ifs <;> omega

/-- **The sectors of a run of blocks** follow each other. -/
theorem sectorAt_of_run {p foffset k : ℕ}
    (hrun : ∀ j ≤ run, w.BlockAt fs extents (fs.lblkno foffset + j) (p + j))
    (hk : 512 * k + fs.blkoff foffset < (run + 1) * fs.bsize) :
    w.SectorAt fs extents (foffset / 512 + k)
      (fs.fsbtodb p + (fs.blkoff foffset / 512 : ℕ) + k) := by
  have hpos : 0 < 2 ^ fs.bptrtodb := by positivity
  have hsplit : foffset / 512 = fs.lblkno foffset * 2 ^ fs.bptrtodb + fs.blkoff foffset / 512 := by
    unfold MExt2fs.lblkno MExt2fs.blkoff
    rw [fs.bsize_eq, Nat.mod_mul_right_div_self, ← Nat.div_div_eq_div_mul, Nat.div_add_mod']
  rw [fs.bsize_eq] at hk
  have hn : fs.blkoff foffset / 512 + k < (run + 1) * 2 ^ fs.bptrtodb := by
    have : 512 * ((run + 1) * 2 ^ fs.bptrtodb) = (run + 1) * (512 * 2 ^ fs.bptrtodb) := by ring
    omega
  -- the sectors behind the first block's start, counted through the run
  set n := fs.blkoff foffset / 512 + k with hndef
  have hj : n / 2 ^ fs.bptrtodb ≤ run := Nat.lt_succ_iff.1 ((Nat.div_lt_iff_lt_mul hpos).2 hn)
  have hs : foffset / 512 + k = n + fs.lblkno foffset * 2 ^ fs.bptrtodb := by omega
  refine ⟨p + n / 2 ^ fs.bptrtodb, ?_, ?_⟩
  · rw [hs, Nat.add_mul_div_right _ _ hpos, Nat.add_comm]
    exact hrun _ hj
  · rw [hs, Nat.add_mul_mod_self_right]
    unfold MExt2fs.fsbtodb
    have hdm : ((n / 2 ^ fs.bptrtodb : ℕ) : ℤ) * 2 ^ fs.bptrtodb + (n % 2 ^ fs.bptrtodb : ℕ) = n := by
      exact_mod_cast Nat.div_add_mod' n (2 ^ fs.bptrtodb)
    push_cast at hdm ⊢
    rw [add_mul, add_assoc, add_assoc, hdm, hndef]
    push_cast
    ring

/-- What is left to show about a result: that the address is that of the block. -/
theorem blockmapRight_iff_of {ap : BlockmapArgs} {r : BlockmapResult} {bn : ℤ}
    (hbpn : ap.bpn = true) (harun : ap.run = true)
    (hmap : bmapRun fs read readcnt extents w (fs.lblkno ap.foffset) = .ok (bn, run))
    (h : ext2Blockmap fs read readcnt extents w ap = .ok r)
    (hseq : ∀ p : ℕ, w.BlockAt fs extents (fs.lblkno ap.foffset) p → bn = fs.fsbtodb p →
      ∀ j ≤ run, w.BlockAt fs extents (fs.lblkno ap.foffset + j) (p + j)) :
    BlockmapRight fs extents w ap r ↔
      if bn < 0 then ¬∃ p, w.BlockAt fs extents (fs.lblkno ap.foffset) p
      else BlockmapTrims w ap ∧
        ∃ p : ℕ, w.BlockAt fs extents (fs.lblkno ap.foffset) p ∧ bn = fs.fsbtodb p := by
  simp only [ext2Blockmap, hbpn, Bool.not_true, Bool.false_eq_true, if_false, hmap, harun, if_true] at h
  obtain ⟨hpos, hbounds⟩ := @contig_spec fs w ap run
  by_cases hneg : bn < 0
  · rw [if_pos hneg] at h ⊢
    cases h
    constructor
    · intro hright
      exact hright (-1) 0 rfl rfl
    · intro hno bpn run' hb _
      cases hb
      exact hno
  · rw [if_neg hneg] at h ⊢
    cases h
    have hne : bn + (fs.blkoff ap.foffset / 512 : ℕ) ≠ -1 := by omega
    constructor
    · intro hright
      have hres := hright _ _ rfl rfl
      rw [if_neg hne] at hres
      obtain ⟨hone, -, -, hsect⟩ := hres
      refine ⟨hpos.1 (by omega), ?_⟩
      -- the first sector of the run says where the block is
      obtain ⟨p, hp, haddr⟩ := hsect 0 (by omega)
      have hlbn : (ap.foffset / 512 + 0) / 2 ^ fs.bptrtodb = fs.lblkno ap.foffset := by
        rw [Nat.add_zero, Nat.div_div_eq_div_mul, ← fs.bsize_eq]
        rfl
      have hoff : (ap.foffset / 512 + 0) % 2 ^ fs.bptrtodb = fs.blkoff ap.foffset / 512 := by
        rw [Nat.add_zero, MExt2fs.blkoff, fs.bsize_eq, Nat.mod_mul_right_div_self]
      rw [hlbn] at hp
      rw [hoff] at haddr
      refine ⟨p, hp, ?_⟩
      push_cast at haddr
      omega
    · rintro ⟨htrims, p, hp, haddr⟩ bpn run' hb hr
      cases hb
      cases hr
      rw [if_neg hne]
      obtain ⟨hspan, hsize, hfile⟩ := hbounds (hpos.2 htrims)
      have hc := hpos.2 htrims
      have h1 := offT_le ap.size
      have h2 := offT_le w.ip.size
      refine ⟨by omega, by omega, by omega, fun k hk => ?_⟩
      rw [haddr]
      refine sectorAt_of_run (hseq p hp haddr) ?_
      have : ((512 * k + fs.blkoff ap.foffset : ℕ) : ℤ) < (((run + 1) * fs.bsize : ℕ) : ℤ) := by
        push_cast
        omega
      exact_mod_cast this

/-! ### The two kinds of inodes -/

theorem findLoop_mono {read' : ℤ → Bool} (hle : ∀ a, read a = true → read' a = true) {k : ℕ}
    {ref leaf : NodeRef} (h : findLoop fs read w lbn k ref = some leaf) :
    findLoop fs read' w lbn k ref = some leaf := by
  induction k generalizing ref with
  | zero => exact h
  | succ k ih =>
    rw [findLoop] at h ⊢
    split at h
    · next hread =>
      rw [if_pos (hle _ hread)]
      exact ih h
    · cases h

/-- What the search finds it also finds when more nodes can be read. -/
theorem ext4ExtFindExtent_mono {read' : ℤ → Bool} (hle : ∀ a, read a = true → read' a = true)
    {path : ExtPath} (h : ext4ExtFindExtent fs read w lbn = some path) :
    ext4ExtFindExtent fs read' w lbn = some path := by
  unfold ext4ExtFindExtent at h ⊢
  dsimp only at h ⊢
  split at h
  · cases h
  · next hmagic =>
    rw [if_neg hmagic]
    cases hloop : findLoop fs read w lbn (w.node fs none).depth none with
    | none => rw [hloop] at h; cases h
    | some leaf =>
      rw [hloop] at h
      rw [findLoop_mono hle hloop]
      exact h

theorem blockmap_right_pointers {ap : BlockmapArgs} {r : BlockmapResult} (hbpn : ap.bpn = true)
    (harun : ap.run = true) (h : ext2Blockmap fs read readcnt false w ap = .ok r) :
    BlockmapRight fs false w ap r ↔ BlockmapCond fs read false w ap := by
  cases hmap : bmapRun fs read readcnt false w (fs.lblkno ap.foffset) with
  | error e =>
    simp only [ext2Blockmap, hbpn, Bool.not_true, Bool.false_eq_true, if_false, hmap] at h
    cases h
  | ok res =>
    obtain ⟨bn, run⟩ := res
    have hbmap : ext2Bmaparray fs (w.bread read) w.ip (some (readcnt / fs.bsize - 1))
        (fs.lblkno ap.foffset) = .ok (bn, run) := hmap
    obtain ⟨hbn, hrun⟩ := ext2Bmaparray_run hbmap
    have hat : ∀ l p, w.BlockAt fs false l p ↔ w.map fs l = p ∧ p ≠ 0 := fun _ _ => Iff.rfl
    rw [blockmapRight_iff_of hbpn harun hmap h]
    · show _ ↔ (fs.lblkno ap.foffset < 12 → _) ∧ (w.map fs (fs.lblkno ap.foffset) ≠ 0 → _)
      generalize fs.lblkno ap.foffset = lbn at *
      simp only [hat]
      by_cases hzero : w.map fs lbn = 0
      · rw [if_pos hzero] at hbn
        have hdb : lbn < 12 → w.ip.db lbn * 2 ^ fs.bptrtodb < 2 ^ 32 := by
          intro hl
          rw [← map_direct fs hl, hzero]
          norm_num
        rw [if_pos (by omega)]
        exact ⟨fun _ => ⟨hdb, fun hne => absurd hzero hne⟩,
          fun _ ⟨p, hp, hne⟩ => hne (hp ▸ hzero)⟩
      · rw [if_neg hzero] at hbn
        have hmapped : ¬¬∃ p, w.map fs lbn = p ∧ p ≠ 0 := not_not.2 ⟨_, rfl, hzero⟩
        by_cases hl : lbn < 12
        · rw [if_pos hl, map_direct fs hl] at hbn
          rw [map_direct fs hl] at hzero hmapped ⊢
          -- the shift keeps the address or makes it smaller
          have hcast : fs.fsbtodb (w.ip.db lbn) = ((w.ip.db lbn * 2 ^ fs.bptrtodb : ℕ) : ℤ) := by
            unfold MExt2fs.fsbtodb
            push_cast
            rfl
          have hpos : 0 < w.ip.db lbn * 2 ^ fs.bptrtodb := by positivity
          have hiff : bn = fs.fsbtodb (w.ip.db lbn) ↔ w.ip.db lbn * 2 ^ fs.bptrtodb < 2 ^ 32 := by
            rw [hbn, hcast]
            unfold MExt2fs.blkptrtodb32
            generalize w.ip.db lbn * 2 ^ fs.bptrtodb = x at hpos ⊢
            split <;> omega
          have hsign : bn = fs.fsbtodb (w.ip.db lbn) → ¬bn < 0 := by
            rw [hcast]
            omega
          constructor
          · intro hright
            split at hright
            · exact absurd hright hmapped
            · obtain ⟨htrims, p, ⟨rfl, -⟩, haddr⟩ := hright
              exact ⟨fun _ => hiff.1 haddr, fun _ => htrims⟩
          · rintro ⟨hbits, htrims⟩
            have haddr := hiff.2 (hbits hl)
            rw [if_neg (hsign haddr)]
            exact ⟨htrims hzero, _, ⟨rfl, hzero⟩, haddr⟩
        · rw [if_neg hl] at hbn
          have hsign : ¬bn < 0 := by
            rw [hbn]
            unfold MExt2fs.fsbtodb
            have : (0 : ℤ) ≤ (w.map fs lbn : ℤ) * 2 ^ fs.bptrtodb := by positivity
            omega
          rw [if_neg hsign]
          exact ⟨fun hright => ⟨fun hl' => absurd hl' hl, fun _ => hright.1⟩,
            fun hcond => ⟨hcond.2 hzero, _, ⟨rfl, hzero⟩, hbn⟩⟩
    · rintro p ⟨rfl, hne⟩ haddr j hj
      have hsign : 0 ≤ bn := by
        rw [haddr]
        unfold MExt2fs.fsbtodb
        positivity
      have hval := hrun hne hsign j hj
      exact ⟨hval, by omega⟩

/-- Where no extent covers the block, the address tells by its sign. -/
theorem endsBelow_iff {leaf : NodeRef} {ep : ℕ}
    (hfind : ext4ExtFindExtent fs read w lbn = some ⟨leaf, some ep⟩) :
    w.EndsBelow fs read lbn ↔ (if extBlock (w.node fs leaf) ep lbn = 0 then -1
      else fs.fsbtodb (extBlock (w.node fs leaf) ep lbn)) < 0 := by
  have hends : w.EndsBelow fs read lbn ↔ extBlock (w.node fs leaf) ep lbn ≤ 0 := by
    unfold World.EndsBelow extBlock
    constructor
    · rintro ⟨leaf', ep', hfind', hle⟩
      rw [hfind] at hfind'
      cases hfind'
      omega
    · intro hle
      exact ⟨leaf, ep, hfind, by omega⟩
  rw [hends]
  generalize extBlock (w.node fs leaf) ep lbn = b
  rcases lt_trichotomy b 0 with hb | rfl | hb
  · rw [if_neg hb.ne]
    exact iff_of_true hb.le (fs.fsbtodb_neg hb)
  · simp
  · rw [if_neg hb.ne']
    have hpos : 0 < fs.fsbtodb b := by
      unfold MExt2fs.fsbtodb
      positivity
    omega

theorem blockmap_right_extents {ap : BlockmapArgs} {r : BlockmapResult} (hbpn : ap.bpn = true)
    (harun : ap.run = true) (hwf : w.ExtWf fs fun _ => true)
    (h : ext2Blockmap fs read readcnt true w ap = .ok r) :
    BlockmapRight fs true w ap r ↔ BlockmapCond fs read true w ap := by
  cases hmap : bmapRun fs read readcnt true w (fs.lblkno ap.foffset) with
  | error e =>
    simp only [ext2Blockmap, hbpn, Bool.not_true, Bool.false_eq_true, if_false, hmap] at h
    cases h
  | ok res =>
    obtain ⟨bn, run⟩ := res
    have hat : ∀ l p, w.BlockAt fs true l p ↔ w.ExtMaps fs l p := fun _ _ => Iff.rfl
    -- the entry the search ends at, and what its numbers make of the block
    obtain ⟨leaf, ep, hfind, rfl, hbn⟩ : ∃ leaf ep,
        ext4ExtFindExtent fs read w (fs.lblkno ap.foffset) = some ⟨leaf, some ep⟩ ∧ run = 0 ∧
        bn = if extBlock (w.node fs leaf) ep (fs.lblkno ap.foffset) = 0 then -1
          else fs.fsbtodb (extBlock (w.node fs leaf) ep (fs.lblkno ap.foffset)) := by
      unfold bmapRun ext4Bmapext at hmap
      rw [if_pos rfl] at hmap
      split at hmap
      · next leaf ep hfind =>
        simp only [Except.map, Except.ok.injEq, Prod.mk.injEq, MExt2fs.fsbtodb_eq_zero] at hmap
        exact ⟨leaf, ep, hfind, hmap.2.symm, hmap.1.symm⟩
      · cases hmap
    rw [blockmapRight_iff_of hbpn harun hmap h]
    · show _ ↔ (∃ p, p ≠ 0 ∧ w.ExtMaps fs (fs.lblkno ap.foffset) p) ∧ _ ∨
        ¬w.ExtCovered fs (fs.lblkno ap.foffset) ∧ w.EndsBelow fs read (fs.lblkno ap.foffset)
      generalize fs.lblkno ap.foffset = lbn at *
      simp only [hat]
      by_cases hcov : w.ExtCovered fs lbn
      · obtain ⟨p, hp⟩ := hcov
        obtain ⟨leaf', hfind', hblock⟩ := find_of_maps hwf hp
        rw [ext4ExtFindExtent_mono (fun _ _ => rfl) hfind] at hfind'
        cases hfind'
        rw [hblock] at hbn
        have huniq : ∀ q, w.ExtMaps fs lbn q → q = p := fun q hq => maps_func hwf hp hq
        have hmapped : ¬¬∃ p, w.ExtMaps fs lbn p := not_not.2 ⟨p, hp⟩
        by_cases hp0 : p = 0
        · rw [if_pos (by exact_mod_cast hp0)] at hbn
          rw [if_pos (by omega)]
          constructor
          · intro hno
            exact absurd hno hmapped
          · rintro (⟨⟨q, hq0, hq⟩, -⟩ | ⟨hno, -⟩)
            · exact absurd (huniq q hq ▸ hp0) hq0
            · exact absurd hno hmapped
        · rw [if_neg (by exact_mod_cast hp0)] at hbn
          have hsign : ¬bn < 0 := by
            rw [hbn]
            unfold MExt2fs.fsbtodb
            have : (0 : ℤ) ≤ (p : ℤ) * 2 ^ fs.bptrtodb := by positivity
            omega
          rw [if_neg hsign]
          constructor
          · intro hright
            exact Or.inl ⟨⟨p, hp0, hp⟩, hright.1⟩
          · rintro (⟨-, htrims⟩ | ⟨hno, -⟩)
            · exact ⟨htrims, p, hp, hbn⟩
            · exact absurd hno hmapped
      · have hnone : ¬∃ p, w.ExtMaps fs lbn p := hcov
        have hsign : w.EndsBelow fs read lbn ↔ bn < 0 := hbn ▸ endsBelow_iff hfind
        constructor
        · intro hright
          split at hright
          · next hneg => exact Or.inr ⟨hcov, hsign.2 hneg⟩
          · obtain ⟨-, p, hp, -⟩ := hright
            exact absurd ⟨p, hp⟩ hnone
        · rintro (⟨⟨p, -, hp⟩, -⟩ | ⟨-, hends⟩)
          · exact absurd ⟨p, hp⟩ hnone
          · rw [if_pos (hsign.1 hends)]
            exact hnone
    · intro p hp _ j hj
      obtain rfl : j = 0 := Nat.le_zero.1 hj
      exact hp

end

/-- **When `ext2_blockmap` is right.**  A call that returns 0, for an inode with pointers or with a
well-formed extent tree, whatever can be read and whatever the device accepts in one read. -/
theorem blockmap_right_iff (fs : MExt2fs) (read : ℤ → Bool) (readcnt : ℕ) (extents : Bool) (w : World)
    (ap : BlockmapArgs) (r : BlockmapResult) (hwf : extents = true → w.ExtWf fs fun _ => true)
    (h : ext2Blockmap fs read readcnt extents w ap = .ok r) :
    BlockmapRight fs extents w ap r ↔
      (ap.bpn = true → ap.run = true → BlockmapCond fs read extents w ap) := by
  by_cases hboth : ap.bpn = true ∧ ap.run = true
  · obtain ⟨hbpn, harun⟩ := hboth
    simp only [hbpn, harun, true_implies]
    cases extents with
    | false => exact blockmap_right_pointers hbpn harun h
    | true => exact blockmap_right_extents hbpn harun (hwf rfl) h
  · -- without both places there is no run to be wrong about
    refine iff_of_true (fun bpn run hb hr => ?_) fun hb hr => absurd ⟨hb, hr⟩ hboth
    unfold ext2Blockmap at h
    split at h
    · cases h
      cases hb
    · next hbpn =>
      have harun : ¬ap.run = true := fun hr' => hboth ⟨by simpa using hbpn, hr'⟩
      simp only [harun] at h
      split at h
      · cases h
      · split at h <;> cases h <;> cases hr

/-- Block 3 of the one extent: 1000 bytes from its second sector on. -/
theorem blockmap_right_oneExtent :
    BlockmapRight volume4k true oneExtent ⟨12800, 1000, true, true, true⟩
      ⟨some 825, some 0, some 1000⟩ :=
  (blockmap_right_iff volume4k (fun _ => true) 1048576 true oneExtent
    ⟨12800, 1000, true, true, true⟩ ⟨some 825, some 0, some 1000⟩ (fun _ => oneExtent_wf)
    (by decide)).2 fun _ _ => Or.inl
      ⟨⟨103, by decide, 1, by decide, by decide, by decide, by decide⟩, by decide, by decide⟩

/-- The same tree in a file of 16 blocks: block 9, which no extent covers, is reported at block 109. -/
theorem blockmap_hole_mapped :
    ext2Blockmap volume4k (fun _ => true) 1048576 true
        (.ofWords [EXT4_EXT_MAGIC + 1 * 2 ^ 16, 4, 0, 0, 8, 100] 65536)
        ⟨36864, 4096, true, true, true⟩ = .ok ⟨some 872, some 0, some 4096⟩ ∧
      ¬BlockmapRight volume4k true (.ofWords [EXT4_EXT_MAGIC + 1 * 2 ^ 16, 4, 0, 0, 8, 100] 65536)
        ⟨36864, 4096, true, true, true⟩ ⟨some 872, some 0, some 4096⟩ := by
  refine ⟨by decide, fun hright => ?_⟩
  have hres := hright _ _ rfl rfl
  rw [if_neg (by decide)] at hres
  obtain ⟨p, ⟨i, h1, hi, hc, -⟩, -⟩ := hres.2.2.2 0 (by decide)
  have hcount : (World.node volume4k (.ofWords [EXT4_EXT_MAGIC + 1 * 2 ^ 16, 4, 0, 0, 8, 100] 65536)
    none).ecount = 1 := by decide
  obtain rfl : i = 1 := by omega
  exact absurd hc (by decide)

end Ext2fs
