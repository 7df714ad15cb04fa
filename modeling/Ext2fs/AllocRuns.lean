import Ext2fs.BlockReserve
import Ext2fs.HashAlloc
import Ext2fs.Lib.NumberPool

/-!
# Runs of the allocator

Any number of calls of `ext2_alloc` and `ext2_valloc` search the groups at the same time, each one group
after the other with the lock of the mount released in between, while `ext2_blkfree` and `ext2_vfree` give
blocks and inodes back.  On a volume whose geometry is sound the groups implement a pool of numbers.

* `Geometry` — the volumes in question: the block numbers fit `int32_t`, and the groups are whole bytes;
* `Consistent` — the counters of every group and of the volume agree with the bitmaps;
* `step_simulates` — one step is one event of the pool, or changes no bitmap and no counter;
* `alloc_runs` — **over every run** the counters agree, and nothing is handed out twice;
* `alloc_panics_iff` — the runs that panic;
* `alone_succeeds` — a call that runs alone fails only if the superblock refuses it.
-/

namespace Ext2fs.GroupMap.Allocator

open NumberPool

/-! ### The machine -/

/-- What is handed out. -/
inductive Number where
  | block (b : ℕ)
  | inode (ino : ℕ)
  deriving DecidableEq, Repr

/-- What a call searches for. -/
inductive Kind where
  | block
  | inode (isDir : Bool)
  deriving DecidableEq, Repr

/-- A search in `ext2_hashalloc`: the preference for the next group, and the groups to come. -/
structure Flight where
  kind : Kind
  pref : ℤ
  groups : List ℕ
  deriving DecidableEq, Repr

/-- The volume and the searches. -/
structure AllocSys where
  gd : ℕ → Group
  sb : Totals
  flights : List Flight

/-- The steps, by the places where the lock is held. -/
inductive AllocOp where
  /-- `ext2_alloc` up to the search, for the inode `ino` -/
  | alloc (suser : Bool) (size : ℕ) (bpref : ℤ) (ino : ℕ)
  /-- `ext2_valloc` up to the search, which starts in the group `cg` -/
  | valloc (isDir : Bool) (cg : ℕ)
  /-- the search `k` tries its next group, whose counter was `before` on entry -/
  | tryGroup (k before : ℕ) (read : Bool)
  /-- `ext2_blkfree` -/
  | blkfree (bno : ℕ) (read : Bool)
  /-- `ext2_vfree` -/
  | vfree (ino : ℕ) (isDir read : Bool)

section Machine

variable (fs : MExt2fs) (contigsumsize : ℕ)

/-- The groups of a search, in their order. -/
def groupsFrom (cg : ℕ) : List ℕ := cg :: hashGroups fs.gcount cg

/-- The preference `ext2_alloc` keeps. -/
def allocPref (bpref : ℤ) : ℤ := if (fs.bcount : ℤ) ≤ bpref then 0 else bpref

/-- The group `ext2_alloc` starts in: that of the preference, else that of the inode. -/
def allocGroup (bpref : ℤ) (ino : ℕ) : ℕ :=
  if bpref = 0 then (ino - 1) / fs.ipg else (fs.dtog64 bpref).toNat

/-- `ext2_alloc` up to the search. -/
def startAlloc (suser : Bool) (size : ℕ) (bpref : ℤ) (ino : ℕ) (s : AllocSys) : AllocSys :=
  if Refused fs s.sb.fbcount suser size then s
  else
    let bpref := allocPref fs bpref
    let cg := allocGroup fs bpref ino
    { s with flights := ⟨.block, bpref, groupsFrom fs cg⟩ :: s.flights }

/-- `ext2_valloc` up to the search. -/
def startValloc (isDir : Bool) (cg : ℕ) (s : AllocSys) : AllocSys :=
  if s.sb.ficount = 0 then s
  else
    { s with flights := ⟨.inode isDir, u32 (cg * fs.ipg + 1 : ℕ), groupsFrom fs cg⟩ :: s.flights }

/-- The call of the allocator for a group. -/
def Flight.search (f : Flight) (cg before : ℕ) (read : Bool) (s : AllocSys) : Outcome :=
  match f.kind with
  | .block => ext2Alloccg fs contigsumsize cg f.pref before read (s.gd cg) s.sb
  | .inode isDir => ext2Nodealloccg fs cg f.pref isDir before read (s.gd cg) s.sb

/-- The counter of a group that the search reads on entry. -/
def Kind.counter : Kind → Group → ℕ
  | .block, gd => gd.nbfree
  | .inode _, gd => gd.nifree

/-- What the caller makes of a number that is not 0: `ext2_alloc` keeps it in `int32_t bno`, and goes to
`nospace` if that is not positive. -/
def Kind.taken (kind : Kind) (number : ℤ) : Option (Event Number) :=
  match kind with
  | .block => if 0 < i32 number then some (.take (.block (i32 number).toNat)) else none
  | .inode _ => some (.take (.inode number.toNat))

/-- The next group of the search `k`.  A number ends the search, and so does the end of the groups; from
the second group on there is no preference. -/
def stepTry (k before : ℕ) (read : Bool) (s : AllocSys) : Option (AllocSys × Option (Event Number)) :=
  match s.flights[k]? with
  | none => some (s, none)
  | some f =>
      match f.groups with
      | [] => some ({ s with flights := s.flights.eraseIdx k }, none)
      | cg :: rest =>
          match f.search fs contigsumsize cg before read s with
          | .corrupted => none
          | .outside => none
          | .ret number gd sb =>
              if number ≠ 0 then
                some (⟨Function.update s.gd cg gd, sb, s.flights.eraseIdx k⟩, f.kind.taken number)
              else
                some (⟨Function.update s.gd cg gd, sb, s.flights.set k ⟨f.kind, 0, rest⟩⟩, none)

/-- `ext2_blkfree` -/
def stepBlkfree (bno : ℕ) (read : Bool) (s : AllocSys) : Option (AllocSys × Option (Event Number)) :=
  (ext2Blkfree fs contigsumsize bno read ⟨s.gd, s.sb, []⟩).map fun t =>
    (⟨t.gd, t.sb, s.flights⟩,
      if fs.bcount ≤ u32 bno ∨ read = false then none else some (.give (.block bno)))

/-- `ext2_vfree`; the panics "range" and "freeing free inode" have no result. -/
def stepVfree (ino : ℕ) (isDir read : Bool) (s : AllocSys) :
    Option (AllocSys × Option (Event Number)) :=
  if u32 (fs.ipg * fs.gcount : ℕ) < u32 ino then none
  else
    let cg := (ino - 1) / fs.ipg
    if read = false then some (s, none)
    else
      let bit := (ino - 1) % fs.ipg
      let gd := s.gd cg
      if gd.ibmap.isclr bit ∧ fs.ronly = false then none
      else
        let gd := { gd with
          ibmap := gd.ibmap.clrbit bit
          nifree := (gd.nifree + 1) % 2 ^ 16
          ndirs := if isDir then (gd.ndirs + (2 ^ 16 - 1)) % 2 ^ 16 else gd.ndirs }
        let sb := { s.sb with
          ficount := u32 (s.sb.ficount + 1)
          totalDir := if isDir then u32 (s.sb.totalDir - 1) else s.sb.totalDir }
        some ({ s with gd := Function.update s.gd cg gd, sb := sb }, some (.give (.inode ino)))

/-- One step, with what it hands out or takes back; a panic has no result. -/
def step : AllocOp → AllocSys → Option (AllocSys × Option (Event Number))
  | .alloc suser size bpref ino, s => some (startAlloc fs suser size bpref ino s, none)
  | .valloc isDir cg, s => some (startValloc fs isDir cg s, none)
  | .tryGroup k before read, s => stepTry fs contigsumsize k before read s
  | .blkfree bno read, s => stepBlkfree fs contigsumsize bno read s
  | .vfree ino isDir read, s => stepVfree fs ino isDir read s

end Machine

/-! ### Consistent volumes -/

/-- The volumes in question.  A group has at most as many blocks and inodes as its 16-bit counters
count, the block numbers fit `int32_t` and the inode numbers `uint32_t`. -/
structure Geometry (fs : MExt2fs) : Prop where
  size : fs.bpg = fs.fpg
  bytes : NBBY ∣ fs.fpg
  fpg_lt : fs.fpg < 2 ^ 16
  ibytes : NBBY ∣ fs.ipg
  ipg_pos : 0 < fs.ipg
  ipg_lt : fs.ipg < 2 ^ 16
  first_le : fs.firstDblock ≤ 1
  first_lt : fs.firstDblock < fs.bcount
  bcount_le : fs.bcount ≤ 2 ^ 31
  inodes_lt : fs.gcount * fs.ipg < 2 ^ 32
  writable : fs.ronly = false

/-- The clear bits below `n`. -/
def clearBits (map : Bitmap) (n : ℕ) : ℕ := ((Finset.range n).filter fun i => map.isclr i = true).card

/-- The number of the block of a bit. -/
def blockAt (fs : MExt2fs) (cg i : ℕ) : ℕ := cg * fs.fpg + fs.firstDblock + i

/-- The number of the inode of a bit. -/
def inodeAt (fs : MExt2fs) (cg i : ℕ) : ℕ := cg * fs.ipg + i + 1

/-- The counters of a group agree with its bitmaps.  Only blocks of the volume are free, and the block 0
is not. -/
structure GroupOk (fs : MExt2fs) (cg : ℕ) (g : Group) : Prop where
  nbfree : g.nbfree = clearBits g.bbmap fs.fpg
  nifree : g.nifree = clearBits g.ibmap fs.ipg
  inside : ∀ i < fs.fpg, g.bbmap.isclr i = true → 0 < blockAt fs cg i ∧ blockAt fs cg i < fs.bcount

/-- The counters of the volume agree with those of the groups. -/
structure CountersOk (fs : MExt2fs) (gd : ℕ → Group) (sb : Totals) : Prop where
  group : ∀ cg < fs.gcount, GroupOk fs cg (gd cg)
  fbcount : sb.fbcount = ∑ cg ∈ Finset.range fs.gcount, (gd cg).nbfree
  ficount : sb.ficount = ∑ cg ∈ Finset.range fs.gcount, (gd cg).nifree

/-- A search goes through groups of the volume, and its preference is not negative. -/
structure FlightOk (fs : MExt2fs) (f : Flight) : Prop where
  groups : ∀ cg ∈ f.groups, cg < fs.gcount
  pref : 0 ≤ f.pref

/-- The counters agree with the bitmaps, and the searches are in order. -/
structure Consistent (fs : MExt2fs) (s : AllocSys) : Prop where
  counters : CountersOk fs s.gd s.sb
  flights : ∀ f ∈ s.flights, FlightOk fs f

/-- The number is one of the group. -/
def Kind.At (fs : MExt2fs) (cg : ℕ) : Kind → Number → Prop
  | .block, n => ∃ i < fs.fpg, n = .block (blockAt fs cg i)
  | .inode _, n => ∃ i < fs.ipg, n = .inode (inodeAt fs cg i)

/-- The blocks and inodes that are free. -/
def free (fs : MExt2fs) (gd : ℕ → Group) : Set Number
  | .block b => ∃ cg < fs.gcount, ∃ i < fs.fpg, (gd cg).bbmap.isclr i = true ∧ b = blockAt fs cg i
  | .inode ino => ∃ cg < fs.gcount, ∃ i < fs.ipg, (gd cg).ibmap.isclr i = true ∧ ino = inodeAt fs cg i

/-- What the callers keep to: preferences are block numbers, a search for an inode starts in a group of
the volume, and what is given back is a number of the volume. -/
def AllocOp.Ok (fs : MExt2fs) : AllocOp → Prop
  | .alloc _ _ bpref ino => 0 ≤ bpref ∧ 0 < ino ∧ ino ≤ fs.gcount * fs.ipg
  | .valloc _ cg => cg < fs.gcount
  | .tryGroup _ _ _ => True
  | .blkfree bno _ => 0 < bno ∧ bno < 2 ^ 32
  | .vfree ino _ _ => 0 < ino ∧ ino ≤ fs.gcount * fs.ipg

/-! ### Bits and counters -/

section Counters

variable {fs : MExt2fs} {map : Bitmap} {cg c i n : ℕ} {g g' : Group} {gd : ℕ → Group} {sb : Totals}
  {s s' : AllocSys}

/-- A clear bit is set. -/
theorem clearBits_setbit (hi : i < n) (hclr : map.isclr i = true) :
    clearBits (map.setbit i) n + 1 = clearBits map n := by
  have hmem : i ∈ (Finset.range n).filter fun i => map.isclr i = true :=
    Finset.mem_filter.2 ⟨Finset.mem_range.2 hi, hclr⟩
  have herase : ((Finset.range n).filter fun j => (map.setbit i).isclr j = true) =
      ((Finset.range n).filter fun j => map.isclr j = true).erase i := by
    ext j
    rw [Finset.mem_erase, Finset.mem_filter, Finset.mem_filter, Bitmap.isclr_setbit]
    by_cases hj : j = i
    · subst hj
      rw [Function.update_self]
      simp
    · rw [Function.update_of_ne hj]
      exact (and_iff_right hj).symm
  rw [clearBits, herase, Finset.card_erase_add_one hmem]
  rfl

/-- A set bit is cleared. -/
theorem clearBits_clrbit (hi : i < n) (hset : map.isclr i = false) :
    clearBits (map.clrbit i) n = clearBits map n + 1 := by
  have hback : clearBits ((map.clrbit i).setbit i) n + 1 = clearBits (map.clrbit i) n := by
    apply clearBits_setbit hi
    rw [Bitmap.isclr_clrbit, Function.update_self]
  have hsame : clearBits ((map.clrbit i).setbit i) n = clearBits map n := by
    unfold clearBits
    congr 1
    ext j
    rw [Finset.mem_filter, Finset.mem_filter, Bitmap.isclr_setbit, Bitmap.isclr_clrbit,
      Function.update_idem]
    by_cases hj : j = i
    · rw [hj, Function.update_self, hset]
    · rw [Function.update_of_ne hj]
  omega

theorem clearBits_le (map : Bitmap) (n : ℕ) : clearBits map n ≤ n := by
  have hle := Finset.card_filter_le (Finset.range n) fun i => map.isclr i = true
  rwa [Finset.card_range] at hle

/-- A counter that is not 0 stands for a clear bit. -/
theorem exists_clear (h : clearBits map n ≠ 0) : ∃ i < n, map.isclr i = true := by
  obtain ⟨i, hi⟩ := Finset.card_pos.1 (Nat.pos_of_ne_zero h)
  rw [Finset.mem_filter, Finset.mem_range] at hi
  exact ⟨i, hi⟩

/-- One group of a sum is replaced. -/
theorem sum_update (f : Group → ℕ) (gd : ℕ → Group) (g : Group) (hcg : cg < n) :
    ∑ c ∈ Finset.range n, f (Function.update gd cg g c) + f (gd cg) =
      ∑ c ∈ Finset.range n, f (gd c) + f g := by
  have hmem : cg ∈ Finset.range n := Finset.mem_range.2 hcg
  have hrest : ∀ c ∈ (Finset.range n).erase cg, f (Function.update gd cg g c) = f (gd c) :=
    fun c hc => by rw [Function.update_of_ne (Finset.ne_of_mem_erase hc)]
  rw [← Finset.add_sum_erase _ _ hmem, ← Finset.add_sum_erase _ (fun c => f (gd c)) hmem,
    Finset.sum_congr rfl hrest, Function.update_self]
  omega

/-- A volume has as many groups as it takes. -/
theorem Geometry.covers (h : Geometry fs) : fs.bcount ≤ fs.gcount * fs.fpg + fs.firstDblock ∧
    fs.gcount * fs.fpg + fs.firstDblock < fs.bcount + fs.fpg := by
  have hfirst := h.first_lt
  have hbcount := h.bcount_le
  have hfpg := h.fpg_lt
  have hpos := fs.bpg_pos
  rw [h.size] at hpos
  have hcast : ((fs.bcount : ℤ) - fs.firstDblock + fs.bpg - 1) =
      ((fs.bcount - fs.firstDblock + fs.fpg - 1 : ℕ) : ℤ) := by
    rw [h.size]
    omega
  have hgcount : fs.gcount = (fs.bcount - fs.firstDblock + fs.fpg - 1) / fs.fpg := by
    rw [MExt2fs.gcount, hcast, u32_of_lt (by omega), h.size]
  have hdiv := Nat.div_add_mod' (fs.bcount - fs.firstDblock + fs.fpg - 1) fs.fpg
  have hmod := Nat.mod_lt (fs.bcount - fs.firstDblock + fs.fpg - 1) hpos
  rw [hgcount]
  omega

theorem Geometry.fpg_pos (h : Geometry fs) : 0 < fs.fpg := h.size ▸ fs.bpg_pos

theorem Geometry.gcount_pos (h : Geometry fs) : 0 < fs.gcount := by
  have hcovers := h.covers.1
  have hfirst := h.first_lt
  by_contra hzero
  rw [Nat.eq_zero_of_not_pos hzero] at hcovers
  omega

/-- A number is split into a group and a bit of it in one way. -/
theorem mul_add_inj {n a b i j : ℕ} (hi : i < n) (hj : j < n) :
    a * n + i = b * n + j ↔ a = b ∧ i = j := by
  refine ⟨fun h => ?_, fun ⟨hab, hij⟩ => by rw [hab, hij]⟩
  have hdiv := congrArg (· / n) h
  have hmod := congrArg (· % n) h
  simp only [Nat.mul_comm _ n, Nat.mul_add_mod, Nat.mod_eq_of_lt hi, Nat.mod_eq_of_lt hj] at hmod
  simp only [Nat.mul_comm _ n, Nat.mul_add_div (Nat.zero_lt_of_lt hi), Nat.div_eq_of_lt hi,
    Nat.div_eq_of_lt hj, Nat.add_zero] at hdiv
  exact ⟨hdiv, hmod⟩

theorem blockAt_inj (hi : i < fs.fpg) {cg' i' : ℕ} (hi' : i' < fs.fpg) :
    blockAt fs cg i = blockAt fs cg' i' ↔ cg = cg' ∧ i = i' := by
  rw [← mul_add_inj hi hi']
  unfold blockAt
  omega

theorem inodeAt_inj (hi : i < fs.ipg) {cg' i' : ℕ} (hi' : i' < fs.ipg) :
    inodeAt fs cg i = inodeAt fs cg' i' ↔ cg = cg' ∧ i = i' := by
  rw [← mul_add_inj hi hi']
  unfold inodeAt
  omega

/-- One group is changed, and the counters of the volume with it. -/
theorem CountersOk.update (h : CountersOk fs gd sb) (hcg : cg < fs.gcount) (hg : GroupOk fs cg g)
    {sb' : Totals} (hfb : sb'.fbcount + (gd cg).nbfree = sb.fbcount + g.nbfree)
    (hfi : sb'.ficount + (gd cg).nifree = sb.ficount + g.nifree) :
    CountersOk fs (Function.update gd cg g) sb' := by
  refine ⟨fun c hc => ?_, ?_, ?_⟩
  · by_cases hcc : c = cg
    · rw [hcc, Function.update_self]
      exact hg
    · rw [Function.update_of_ne hcc]
      exact h.group c hc
  · have hsum := sum_update Group.nbfree gd g hcg
    rw [← h.fbcount] at hsum
    omega
  · have hsum := sum_update Group.nifree gd g hcg
    rw [← h.ficount] at hsum
    omega

/-- The counters of the volume stay in their range. -/
theorem CountersOk.counts_le (h : CountersOk fs gd sb) :
    sb.fbcount ≤ fs.gcount * fs.fpg ∧ sb.ficount ≤ fs.gcount * fs.ipg := by
  have hle : ∀ (f : Group → ℕ) (n : ℕ), (∀ c < fs.gcount, f (gd c) ≤ n) →
      ∑ c ∈ Finset.range fs.gcount, f (gd c) ≤ fs.gcount * n := fun f n hf => by
    have hsum := Finset.sum_le_card_nsmul (Finset.range fs.gcount) (fun c => f (gd c)) n fun c hc =>
      hf c (Finset.mem_range.1 hc)
    rwa [Finset.card_range, smul_eq_mul] at hsum
  rw [h.fbcount, h.ficount]
  exact ⟨hle Group.nbfree fs.fpg fun c hc => (h.group c hc).nbfree ▸ clearBits_le _ _,
    hle Group.nifree fs.ipg fun c hc => (h.group c hc).nifree ▸ clearBits_le _ _⟩

/-- A counter of a group is part of that of the volume. -/
theorem CountersOk.group_le (h : CountersOk fs gd sb) (hcg : cg < fs.gcount) :
    (gd cg).nbfree ≤ sb.fbcount ∧ (gd cg).nifree ≤ sb.ficount := by
  rw [h.fbcount, h.ficount]
  exact ⟨Finset.single_le_sum (f := fun c => (gd c).nbfree) (fun _ _ => Nat.zero_le _)
      (Finset.mem_range.2 hcg),
    Finset.single_le_sum (f := fun c => (gd c).nifree) (fun _ _ => Nat.zero_le _)
      (Finset.mem_range.2 hcg)⟩

/-! ### The free numbers -/

theorem mem_free_block (gd : ℕ → Group) (hcg : cg < fs.gcount) (hi : i < fs.fpg) :
    Number.block (blockAt fs cg i) ∈ free fs gd ↔ (gd cg).bbmap.isclr i = true := by
  refine ⟨fun ⟨cg', _, i', hi', hclr, heq⟩ => ?_, fun h => ⟨cg, hcg, i, hi, h, rfl⟩⟩
  obtain ⟨rfl, rfl⟩ := (blockAt_inj hi hi').1 heq
  exact hclr

theorem mem_free_inode (gd : ℕ → Group) (hcg : cg < fs.gcount) (hi : i < fs.ipg) :
    Number.inode (inodeAt fs cg i) ∈ free fs gd ↔ (gd cg).ibmap.isclr i = true := by
  refine ⟨fun ⟨cg', _, i', hi', hclr, heq⟩ => ?_, fun h => ⟨cg, hcg, i, hi, h, rfl⟩⟩
  obtain ⟨rfl, rfl⟩ := (inodeAt_inj hi hi').1 heq
  exact hclr

/-- Every free number is that of a bit. -/
theorem free_ext {X : Set Number} (hX : ∀ n ∈ X, (∃ cg < fs.gcount, ∃ i < fs.fpg,
      n = .block (blockAt fs cg i)) ∨ ∃ cg < fs.gcount, ∃ i < fs.ipg, n = .inode (inodeAt fs cg i))
    (hblock : ∀ c < fs.gcount, ∀ j < fs.fpg,
      (gd c).bbmap.isclr j = true ↔ Number.block (blockAt fs c j) ∈ X)
    (hinode : ∀ c < fs.gcount, ∀ j < fs.ipg,
      (gd c).ibmap.isclr j = true ↔ Number.inode (inodeAt fs c j) ∈ X) : free fs gd = X := by
  ext n
  constructor
  · intro hn
    cases n with
    | block b =>
      obtain ⟨c, hc, j, hj, hclr, rfl⟩ := hn
      exact (hblock c hc j hj).1 hclr
    | inode ino =>
      obtain ⟨c, hc, j, hj, hclr, rfl⟩ := hn
      exact (hinode c hc j hj).1 hclr
  · intro hn
    rcases hX n hn with ⟨c, hc, j, hj, rfl⟩ | ⟨c, hc, j, hj, rfl⟩
    · exact (mem_free_block gd hc hj).2 ((hblock c hc j hj).2 hn)
    · exact (mem_free_inode gd hc hj).2 ((hinode c hc j hj).2 hn)

theorem free_at {n : Number} (hn : n ∈ free fs gd) : (∃ cg < fs.gcount, ∃ i < fs.fpg,
    n = .block (blockAt fs cg i)) ∨ ∃ cg < fs.gcount, ∃ i < fs.ipg, n = .inode (inodeAt fs cg i) := by
  cases n with
  | block b =>
    obtain ⟨c, hc, j, hj, -, rfl⟩ := hn
    exact .inl ⟨c, hc, j, hj, rfl⟩
  | inode ino =>
    obtain ⟨c, hc, j, hj, -, rfl⟩ := hn
    exact .inr ⟨c, hc, j, hj, rfl⟩

/-- The numbers that are free once `n` is free, or is not. -/
def changed (b : Bool) (n : Number) (X : Set Number) : Set Number := if b then insert n X else X \ {n}

theorem mem_changed {b : Bool} {n m : Number} {X : Set Number} :
    m ∈ changed b n X ↔ if m = n then b = true else m ∈ X := by
  unfold changed
  by_cases hm : m = n <;> cases b <;> simp [hm]

/-- The bit of one number is changed. -/
theorem free_change {gd' : ℕ → Group} {n : Number} {b : Bool}
    (hn : (∃ cg < fs.gcount, ∃ i < fs.fpg, n = .block (blockAt fs cg i)) ∨
      ∃ cg < fs.gcount, ∃ i < fs.ipg, n = .inode (inodeAt fs cg i))
    (hblock : ∀ c < fs.gcount, ∀ j < fs.fpg, (gd' c).bbmap.isclr j =
      if Number.block (blockAt fs c j) = n then b else (gd c).bbmap.isclr j)
    (hinode : ∀ c < fs.gcount, ∀ j < fs.ipg, (gd' c).ibmap.isclr j =
      if Number.inode (inodeAt fs c j) = n then b else (gd c).ibmap.isclr j) :
    free fs gd' = changed b n (free fs gd) := by
  refine free_ext (fun m hm => ?_) (fun c hc j hj => ?_) fun c hc j hj => ?_
  · rw [mem_changed] at hm
    split at hm
    next heq => exact heq ▸ hn
    next => exact free_at hm
  · rw [hblock c hc j hj, mem_changed, mem_free_block gd hc hj]
    split <;> exact Iff.rfl
  · rw [hinode c hc j hj, mem_changed, mem_free_inode gd hc hj]
    split <;> exact Iff.rfl

/-- One bit of one bitmap of blocks is changed. -/
theorem free_update_block (hcg : cg < fs.gcount) (hi : i < fs.fpg) {b : Bool}
    (hb : g.bbmap.isclr = Function.update (gd cg).bbmap.isclr i b) (hib : g.ibmap = (gd cg).ibmap) :
    free fs (Function.update gd cg g) = changed b (.block (blockAt fs cg i)) (free fs gd) := by
  refine free_change (.inl ⟨cg, hcg, i, hi, rfl⟩) (fun c _ j hj => ?_) fun c _ j _ => ?_
  · simp only [Number.block.injEq, blockAt_inj hj hi]
    by_cases hcc : c = cg
    · subst hcc
      rw [Function.update_self, hb, Function.update_apply]
      simp only [true_and]
    · rw [Function.update_of_ne hcc, if_neg fun h => hcc h.1]
  · rw [if_neg (by simp)]
    by_cases hcc : c = cg
    · subst hcc
      rw [Function.update_self, hib]
    · rw [Function.update_of_ne hcc]

/-- One bit of one bitmap of inodes is changed. -/
theorem free_update_inode (hcg : cg < fs.gcount) (hi : i < fs.ipg) {b : Bool}
    (hb : g.ibmap.isclr = Function.update (gd cg).ibmap.isclr i b) (hbb : g.bbmap = (gd cg).bbmap) :
    free fs (Function.update gd cg g) = changed b (.inode (inodeAt fs cg i)) (free fs gd) := by
  refine free_change (.inr ⟨cg, hcg, i, hi, rfl⟩) (fun c _ j _ => ?_) fun c _ j hj => ?_
  · rw [if_neg (by simp)]
    by_cases hcc : c = cg
    · subst hcc
      rw [Function.update_self, hbb]
    · rw [Function.update_of_ne hcc]
  · simp only [Number.inode.injEq, inodeAt_inj hj hi]
    by_cases hcc : c = cg
    · subst hcc
      rw [Function.update_self, hb, Function.update_apply]
      simp only [true_and]
    · rw [Function.update_of_ne hcc, if_neg fun h => hcc h.1]

end Counters

/-! ### One try of a group -/

section Try

variable {fs : MExt2fs} {cg : ℕ} {pref : ℤ} {gd : ℕ → Group} {sb : Totals}

/-- **`ext2_alloccg` on a consistent volume**: nothing is found and nothing changed, or a free block is
taken. -/
theorem alloccg_spec (hg : Geometry fs) (h : CountersOk fs gd sb) (hcg : cg < fs.gcount)
    (hpref : 0 ≤ pref) (c before : ℕ) (read : Bool) :
    (before = 0 ∨ read = false ∨ (gd cg).nbfree = 0) ∧
        ext2Alloccg fs c cg pref before read (gd cg) sb = .ret 0 (gd cg) sb ∨
      ∃ i < fs.fpg, (gd cg).bbmap.isclr i = true ∧ ∃ cs,
        ext2Alloccg fs c cg pref before read (gd cg) sb = .ret (blockAt fs cg i)
          { gd cg with
            bbmap := (gd cg).bbmap.setbit i
            nbfree := (gd cg).nbfree - 1
            cs := cs }
          { sb with fbcount := sb.fbcount - 1 } := by
  have hok := h.group cg hcg
  by_cases hb : before = 0
  · exact .inl ⟨.inl hb, if_pos hb⟩
  by_cases hr : read = false
  · refine .inl ⟨.inr (.inl hr), ?_⟩
    rw [ext2Alloccg, if_neg hb, if_pos hr]
  by_cases hn : (gd cg).nbfree = 0
  · refine .inl ⟨.inr (.inr hn), ?_⟩
    rw [ext2Alloccg, if_neg hb, if_neg hr, if_pos hn]
  right
  obtain rfl : read = true := by simpa using hr
  have hagree : BlocksAgree fs before (gd cg) :=
    ⟨hg.size, hg.bytes, hb, Nat.pos_of_ne_zero hn, hok.nbfree⟩
  obtain ⟨i, hi, hclr, hfound⟩ := searchBlock_spec hg.size hg.bytes
    (inMap_of_first_le_one hg.first_le (gd cg).bbmap cg hpref) (exists_free hagree)
  obtain ⟨hpos, hlt⟩ := hok.inside i hi hclr
  have hbcount := hg.bcount_le
  have hnumber : blockNumber fs cg i = blockAt fs cg i := by
    unfold blockNumber blockAt at *
    rw [u32_of_lt (by omega), ← Nat.cast_add]
  have hle := (h.group_le hcg).1
  have hrange := (h.counts_le).1
  have hcovers := hg.covers.2
  have hfpg := hg.fpg_lt
  have hcount : u32 ((sb.fbcount : ℤ) - 1) = sb.fbcount - 1 := by
    have := u32_of_lt (show sb.fbcount - 1 < 2 ^ 32 by omega)
    rwa [Nat.cast_sub (by omega), Nat.cast_one] at this
  have hret := alloccg_bit hagree c sb hfound
  rw [hnumber, hcount] at hret
  exact ⟨i, hi, hclr, _, hret⟩

/-- **`ext2_nodealloccg` on a consistent volume.** -/
theorem nodealloccg_spec (hg : Geometry fs) (h : CountersOk fs gd sb) (hcg : cg < fs.gcount)
    (hpref : 0 ≤ pref) (isDir : Bool) (before : ℕ) (read : Bool) :
    (before = 0 ∨ read = false ∨ (gd cg).nifree = 0) ∧
        ext2Nodealloccg fs cg pref isDir before read (gd cg) sb = .ret 0 (gd cg) sb ∨
      ∃ i < fs.ipg, (gd cg).ibmap.isclr i = true ∧ ∃ ndirs totalDir,
        ext2Nodealloccg fs cg pref isDir before read (gd cg) sb = .ret (inodeAt fs cg i)
          { gd cg with
            ibmap := (gd cg).ibmap.setbit i
            nifree := (gd cg).nifree - 1
            ndirs := ndirs }
          { sb with
            ficount := sb.ficount - 1
            totalDir := totalDir } := by
  have hok := h.group cg hcg
  by_cases hb : before = 0
  · exact .inl ⟨.inl hb, if_pos hb⟩
  by_cases hr : read = false
  · refine .inl ⟨.inr (.inl hr), ?_⟩
    rw [ext2Nodealloccg, if_neg hb, if_pos hr]
  by_cases hn : (gd cg).nifree = 0
  · refine .inl ⟨.inr (.inr hn), ?_⟩
    rw [ext2Nodealloccg, if_neg hb, if_neg hr, if_pos hn]
  right
  obtain rfl : read = true := by simpa using hr
  have hfree : ∃ j < fs.ipg, (gd cg).ibmap.isclr j = true := exists_clear (hok.nifree ▸ hn)
  obtain ⟨i, hi, hclr, hfound⟩ := searchInode_spec hg.ibytes hfree (.inl hpref)
  have hinodes := hg.inodes_lt
  have hgroup : cg * fs.ipg + fs.ipg ≤ fs.gcount * fs.ipg := by
    rw [← Nat.succ_mul]
    exact Nat.mul_le_mul_right _ hcg
  have hnumber : inodeNumber fs cg i = inodeAt fs cg i := by
    unfold inodeNumber inodeAt
    rw [u32_of_lt (by omega)]
    push_cast
    ring
  have hle := (h.group_le hcg).2
  have hrange := (h.counts_le).2
  have hcount : u32 ((sb.ficount : ℤ) - 1) = sb.ficount - 1 := by
    have := u32_of_lt (show sb.ficount - 1 < 2 ^ 32 by omega)
    rwa [Nat.cast_sub (by omega), Nat.cast_one] at this
  have hret := nodealloccg_bit cg isDir sb hb hn hfound
  rw [hnumber, hcount] at hret
  exact ⟨i, hi, hclr, _, _, hret⟩

/-- What a step does: the volume stays consistent, the pool makes the move, and without an event nothing
is changed. -/
structure StepOk (fs : MExt2fs) (s : AllocSys) (s' : AllocSys) (e : Option (Event Number)) : Prop where
  consistent : Consistent fs s'
  moves : NumberPool.Moves (free fs s.gd) (free fs s'.gd) e
  quiet : e = none → s'.gd = s.gd ∧ s'.sb = s.sb

variable {s s' : AllocSys} {e : Option (Event Number)} {contigsumsize k before : ℕ} {read : Bool}

/-- Only the searches are changed. -/
theorem StepOk.of_flights (h : CountersOk fs s.gd s.sb) {flights : List Flight}
    (hflights : ∀ f ∈ flights, FlightOk fs f) : StepOk fs s { s with flights := flights } none :=
  ⟨⟨h, hflights⟩, rfl, fun _ => ⟨rfl, rfl⟩⟩

/-- A block of a group is taken. -/
theorem CountersOk.take_block (h : CountersOk fs gd sb) (hcg : cg < fs.gcount) {i : ℕ} (hi : i < fs.fpg)
    (hclr : (gd cg).bbmap.isclr i = true) (cs : Csum) :
    let g := { gd cg with
      bbmap := (gd cg).bbmap.setbit i
      nbfree := (gd cg).nbfree - 1
      cs := cs }
    CountersOk fs (Function.update gd cg g) { sb with fbcount := sb.fbcount - 1 } ∧
      NumberPool.Moves (free fs gd) (free fs (Function.update gd cg g))
        (some (.take (.block (blockAt fs cg i)))) := by
  intro g
  have hok := h.group cg hcg
  have hone := clearBits_setbit hi hclr
  have hcount := hok.nbfree
  have hle := (h.group_le hcg).1
  have hclear : ∀ j, ((gd cg).bbmap.setbit i).isclr j = true → (gd cg).bbmap.isclr j = true := by
    intro j hj
    rw [Bitmap.isclr_setbit] at hj
    by_cases hji : j = i
    · rwa [hji]
    · rwa [Function.update_of_ne hji] at hj
  have hgroup : GroupOk fs cg g := by
    refine ⟨?_, hok.nifree, fun j hj hjc => hok.inside j hj (hclear j hjc)⟩
    show (gd cg).nbfree - 1 = clearBits ((gd cg).bbmap.setbit i) fs.fpg
    omega
  have hfree : free fs (Function.update gd cg g) =
      changed false (.block (blockAt fs cg i)) (free fs gd) :=
    free_update_block hcg hi (Bitmap.isclr_setbit _ _) rfl
  refine ⟨h.update hcg hgroup ?_ rfl, (mem_free_block gd hcg hi).2 hclr, hfree⟩
  show sb.fbcount - 1 + (gd cg).nbfree = sb.fbcount + ((gd cg).nbfree - 1)
  omega

/-- An inode of a group is taken. -/
theorem CountersOk.take_inode (h : CountersOk fs gd sb) (hcg : cg < fs.gcount) {i : ℕ} (hi : i < fs.ipg)
    (hclr : (gd cg).ibmap.isclr i = true) (ndirs totalDir : ℕ) :
    let g := { gd cg with
      ibmap := (gd cg).ibmap.setbit i
      nifree := (gd cg).nifree - 1
      ndirs := ndirs }
    CountersOk fs (Function.update gd cg g)
        { sb with
          ficount := sb.ficount - 1
          totalDir := totalDir } ∧
      NumberPool.Moves (free fs gd) (free fs (Function.update gd cg g))
        (some (.take (.inode (inodeAt fs cg i)))) := by
  intro g
  have hok := h.group cg hcg
  have hone := clearBits_setbit hi hclr
  have hcount := hok.nifree
  have hle := (h.group_le hcg).2
  have hgroup : GroupOk fs cg g := by
    refine ⟨hok.nbfree, ?_, hok.inside⟩
    show (gd cg).nifree - 1 = clearBits ((gd cg).ibmap.setbit i) fs.ipg
    omega
  have hfree : free fs (Function.update gd cg g) =
      changed false (.inode (inodeAt fs cg i)) (free fs gd) :=
    free_update_inode hcg hi (Bitmap.isclr_setbit _ _) rfl
  refine ⟨h.update hcg hgroup rfl ?_, (mem_free_inode gd hcg hi).2 hclr, hfree⟩
  show sb.ficount - 1 + (gd cg).nifree = sb.ficount + ((gd cg).nifree - 1)
  omega

/-- What the call of the allocator for a group comes to: nothing is found and nothing changed, or a
number is taken that the caller keeps. -/
theorem Flight.search_spec {f : Flight} (hg : Geometry fs) (h : CountersOk fs s.gd s.sb)
    (hf : FlightOk fs f) (hcg : cg < fs.gcount) (c before : ℕ) (read : Bool) :
    (before = 0 ∨ read = false ∨ f.kind.counter (s.gd cg) = 0) ∧
        f.search fs c cg before read s = .ret 0 (s.gd cg) s.sb ∨
      ∃ number g sb n, f.search fs c cg before read s = .ret number g sb ∧ number ≠ 0 ∧
        f.kind.taken number = some (.take n) ∧ f.kind.At fs cg n ∧
        CountersOk fs (Function.update s.gd cg g) sb ∧
        NumberPool.Moves (free fs s.gd) (free fs (Function.update s.gd cg g)) (some (.take n)) := by
  unfold Flight.search
  cases f.kind with
  | block =>
    rcases alloccg_spec hg h hcg hf.pref c before read with hret | ⟨i, hi, hclr, cs, hret⟩
    · exact .inl hret
    · obtain ⟨hpos, hlt⟩ := (h.group cg hcg).inside i hi hclr
      have hbcount := hg.bcount_le
      have h32 : i32 (blockAt fs cg i : ℤ) = blockAt fs cg i := i32_of_lt (by omega) (by omega)
      have htaken : Kind.block.taken (blockAt fs cg i) = some (.take (.block (blockAt fs cg i))) := by
        rw [Kind.taken, h32, if_pos (by omega), Int.toNat_natCast]
      obtain ⟨hcounters, hmoves⟩ := h.take_block hcg hi hclr cs
      exact .inr ⟨_, _, _, _, hret, by omega, htaken, ⟨i, hi, rfl⟩, hcounters, hmoves⟩
  | inode isDir =>
    rcases nodealloccg_spec hg h hcg hf.pref isDir before read with
      hret | ⟨i, hi, hclr, ndirs, totalDir, hret⟩
    · exact .inl hret
    · have hne : (inodeAt fs cg i : ℤ) ≠ 0 := by
        unfold inodeAt
        omega
      obtain ⟨hcounters, hmoves⟩ := h.take_inode hcg hi hclr ndirs totalDir
      exact .inr ⟨_, _, _, _, hret, hne, rfl, ⟨i, hi, rfl⟩, hcounters, hmoves⟩

/-- **One try of a group.** -/
theorem stepTry_ok (hg : Geometry fs) (h : Consistent fs s)
    (hstep : stepTry fs contigsumsize k before read s = some (s', e)) : StepOk fs s s' e := by
  unfold stepTry at hstep
  cases hk : s.flights[k]? with
  | none =>
    rw [hk] at hstep
    cases hstep
    exact StepOk.of_flights h.counters h.flights
  | some f =>
    rw [hk] at hstep
    have hf : FlightOk fs f := h.flights f (List.mem_of_getElem? hk)
    have herase : ∀ f ∈ s.flights.eraseIdx k, FlightOk fs f := fun f hf =>
      h.flights f (List.mem_of_mem_eraseIdx hf)
    cases hgroups : f.groups with
    | nil =>
      simp only [hgroups, Option.some.injEq, Prod.mk.injEq] at hstep
      obtain ⟨rfl, rfl⟩ := hstep
      exact StepOk.of_flights h.counters herase
    | cons cg rest =>
      have hcg : cg < fs.gcount := hf.groups cg (hgroups ▸ List.mem_cons_self ..)
      simp only [hgroups] at hstep
      rcases f.search_spec hg h.counters hf hcg contigsumsize before read with
        ⟨-, hret⟩ | ⟨number, g, sb, n, hret, hne, htaken, -, hcounters, hmoves⟩
      · -- the search goes on
        have hset : ∀ f' ∈ s.flights.set k ⟨f.kind, 0, rest⟩, FlightOk fs f' := by
          intro f' hf'
          rcases List.mem_or_eq_of_mem_set hf' with hmem | rfl
          · exact h.flights f' hmem
          · exact ⟨fun c hc => hf.groups c (hgroups ▸ List.mem_cons_of_mem cg hc), le_rfl⟩
        rw [hret] at hstep
        simp only [ne_eq, not_true_eq_false, if_false, Option.some.injEq, Prod.mk.injEq,
          Function.update_eq_self] at hstep
        obtain ⟨rfl, rfl⟩ := hstep
        exact StepOk.of_flights h.counters hset
      · rw [hret] at hstep
        simp only [if_pos hne, htaken, Option.some.injEq, Prod.mk.injEq] at hstep
        obtain ⟨rfl, rfl⟩ := hstep
        exact ⟨⟨hcounters, herase⟩, hmoves, fun hnone => by cases hnone⟩

/-! ### Giving back -/

/-- The place of a block. -/
theorem exists_blockAt (hg : Geometry fs) {b : ℕ} (hpos : 0 < b) (hlt : b < fs.bcount) :
    ∃ cg < fs.gcount, ∃ i < fs.fpg, b = blockAt fs cg i ∧ fs.dtog64 b = cg ∧ fs.dtogd64 b = i := by
  have hfirst := hg.first_le
  have hbcount := hg.bcount_le
  have hcovers := hg.covers.1
  have hfpg := hg.fpg_pos
  have hsplit := Nat.div_add_mod' (b - fs.firstDblock) fs.fpg
  have hmod := Nat.mod_lt (b - fs.firstDblock) hfpg
  have hcg : (b - fs.firstDblock) / fs.fpg < fs.gcount := by
    rw [Nat.div_lt_iff_lt_mul hfpg]
    omega
  have hb : b = blockAt fs ((b - fs.firstDblock) / fs.fpg) ((b - fs.firstDblock) % fs.fpg) := by
    unfold blockAt
    omega
  have hbase : (b - fs.firstDblock) / fs.fpg * fs.fpg + fs.firstDblock < 2 ^ 32 := by omega
  have hnumber : blockNumber fs ((b - fs.firstDblock) / fs.fpg) ((b - fs.firstDblock) % fs.fpg) =
      b := by
    unfold blockNumber
    rw [u32_of_lt hbase]
    omega
  have hplace := (blockNumber_dtog_iff hg.size hmod).2 hbase
  rw [hnumber] at hplace
  exact ⟨_, hcg, _, hmod, hb, hplace⟩

/-- The place of an inode. -/
theorem exists_inodeAt (hg : Geometry fs) {ino : ℕ} (hpos : 0 < ino) (hle : ino ≤ fs.gcount * fs.ipg) :
    (ino - 1) / fs.ipg < fs.gcount ∧
      ino = inodeAt fs ((ino - 1) / fs.ipg) ((ino - 1) % fs.ipg) := by
  have hsplit := Nat.div_add_mod' (ino - 1) fs.ipg
  refine ⟨?_, ?_⟩
  · rw [Nat.div_lt_iff_lt_mul hg.ipg_pos]
    omega
  · unfold inodeAt
    omega

/-- A block of a group is given back. -/
theorem CountersOk.give_block (h : CountersOk fs gd sb) (hcg : cg < fs.gcount) {i : ℕ} (hi : i < fs.fpg)
    (hset : (gd cg).bbmap.isclr i = false) (hpos : 0 < blockAt fs cg i)
    (hlt : blockAt fs cg i < fs.bcount) (cs : Csum) :
    let g := { gd cg with
      bbmap := (gd cg).bbmap.clrbit i
      nbfree := (gd cg).nbfree + 1
      cs := cs }
    CountersOk fs (Function.update gd cg g) { sb with fbcount := sb.fbcount + 1 } ∧
      NumberPool.Moves (free fs gd) (free fs (Function.update gd cg g))
        (some (.give (.block (blockAt fs cg i)))) := by
  intro g
  have hok := h.group cg hcg
  have hone := clearBits_clrbit hi hset
  have hcount := hok.nbfree
  have hgroup : GroupOk fs cg g := by
    refine ⟨?_, hok.nifree, fun j hj hjc => ?_⟩
    · show (gd cg).nbfree + 1 = clearBits ((gd cg).bbmap.clrbit i) fs.fpg
      omega
    · replace hjc : ((gd cg).bbmap.clrbit i).isclr j = true := hjc
      rw [Bitmap.isclr_clrbit] at hjc
      by_cases hji : j = i
      · rw [hji]
        exact ⟨hpos, hlt⟩
      · rw [Function.update_of_ne hji] at hjc
        exact hok.inside j hj hjc
  have hfree : free fs (Function.update gd cg g) =
      changed true (.block (blockAt fs cg i)) (free fs gd) :=
    free_update_block hcg hi (Bitmap.isclr_clrbit _ _) rfl
  have hused : Number.block (blockAt fs cg i) ∉ free fs gd := by
    rw [mem_free_block gd hcg hi, hset]
    exact Bool.false_ne_true
  refine ⟨h.update hcg hgroup ?_ rfl, hused, hfree⟩
  show sb.fbcount + 1 + (gd cg).nbfree = sb.fbcount + ((gd cg).nbfree + 1)
  omega

/-- An inode of a group is given back. -/
theorem CountersOk.give_inode (h : CountersOk fs gd sb) (hcg : cg < fs.gcount) {i : ℕ} (hi : i < fs.ipg)
    (hset : (gd cg).ibmap.isclr i = false) (ndirs totalDir : ℕ) :
    let g := { gd cg with
      ibmap := (gd cg).ibmap.clrbit i
      nifree := (gd cg).nifree + 1
      ndirs := ndirs }
    CountersOk fs (Function.update gd cg g)
        { sb with
          ficount := sb.ficount + 1
          totalDir := totalDir } ∧
      NumberPool.Moves (free fs gd) (free fs (Function.update gd cg g))
        (some (.give (.inode (inodeAt fs cg i)))) := by
  intro g
  have hok := h.group cg hcg
  have hone := clearBits_clrbit hi hset
  have hcount := hok.nifree
  have hgroup : GroupOk fs cg g := by
    refine ⟨hok.nbfree, ?_, hok.inside⟩
    show (gd cg).nifree + 1 = clearBits ((gd cg).ibmap.clrbit i) fs.ipg
    omega
  have hfree : free fs (Function.update gd cg g) =
      changed true (.inode (inodeAt fs cg i)) (free fs gd) :=
    free_update_inode hcg hi (Bitmap.isclr_clrbit _ _) rfl
  have hused : Number.inode (inodeAt fs cg i) ∉ free fs gd := by
    rw [mem_free_inode gd hcg hi, hset]
    exact Bool.false_ne_true
  refine ⟨h.update hcg hgroup rfl ?_, hused, hfree⟩
  show sb.ficount + 1 + (gd cg).nifree = sb.ficount + ((gd cg).nifree + 1)
  omega

/-- The counter of a group with a bit in use has room for one more. -/
theorem room_of_set {map : Bitmap} {n i : ℕ} (hi : i < n) (hset : map.isclr i = false)
    (hn : n < 2 ^ 16) : (clearBits map n + 1) % 2 ^ 16 = clearBits map n + 1 := by
  have hone := clearBits_clrbit hi hset
  have hle := clearBits_le (map.clrbit i) n
  exact Nat.mod_eq_of_lt (by omega)

/-- The number an operation gives back. -/
def AllocOp.gives (fs : MExt2fs) : AllocOp → Option Number
  | .blkfree bno read => if fs.bcount ≤ bno ∨ read = false then none else some (.block bno)
  | .vfree ino _ read => if read = false then none else some (.inode ino)
  | _ => none

/-- What giving back comes to: without a number nothing is changed, a number that is free is a panic, and
one in use is given back. -/
inductive GiveOk (fs : MExt2fs) (s : AllocSys) :
    Option Number → Option (AllocSys × Option (Event Number)) → Prop
  | ignored : GiveOk fs s none (some (s, none))
  | panics {n : Number} (hfree : n ∈ free fs s.gd) : GiveOk fs s (some n) none
  | given {n : Number} {s' : AllocSys} (hused : n ∉ free fs s.gd)
      (hok : StepOk fs s s' (some (.give n))) : GiveOk fs s (some n) (some (s', some (.give n)))

variable {bno ino : ℕ} {isDir : Bool}

/-- **`ext2_blkfree` on a consistent volume.** -/
theorem stepBlkfree_ok (hg : Geometry fs) (h : Consistent fs s) (hpos : 0 < bno) (hlt : bno < 2 ^ 32) :
    GiveOk fs s ((AllocOp.blkfree bno read).gives fs) (stepBlkfree fs contigsumsize bno read s) := by
  have h32 : u32 (bno : ℤ) = bno := u32_of_lt hlt
  rw [AllocOp.gives, stepBlkfree, ext2Blkfree, h32]
  by_cases hout : fs.bcount ≤ bno
  · rw [if_pos (.inl hout), if_pos hout, if_pos (.inl hout)]
    exact .ignored
  by_cases hread : read = false
  · rw [if_pos (.inr hread), if_neg hout, if_pos hread, if_pos (.inr hread)]
    exact .ignored
  have hin : ¬(fs.bcount ≤ bno ∨ read = false) := fun hor => hor.elim hout hread
  rw [if_neg hin, if_neg hout, if_neg hread, if_neg hin]
  obtain ⟨cg, hcg, i, hi, hbno, hdtog, hdtogd⟩ := exists_blockAt hg hpos (by omega)
  have hsigns : ¬((cg : ℤ) < 0 ∨ (i : ℤ) < 0) := by omega
  simp only [hdtog, hdtogd, if_neg hsigns, Int.toNat_natCast]
  have hmem := mem_free_block s.gd hcg hi
  rw [← hbno] at hmem
  by_cases hclr : (s.gd cg).bbmap.isclr i = true
  · rw [if_pos hclr]
    exact .panics (hmem.2 hclr)
  rw [if_neg hclr]
  have hused : Number.block bno ∉ free fs s.gd := fun hfree => hclr (hmem.1 hfree)
  replace hclr : (s.gd cg).bbmap.isclr i = false := by simpa using hclr
  have hroom : ((s.gd cg).nbfree + 1) % 2 ^ 16 = (s.gd cg).nbfree + 1 := by
    rw [(h.counters.group cg hcg).nbfree]
    exact room_of_set hi hclr hg.fpg_lt
  obtain ⟨hcounters, hmoves⟩ := h.counters.give_block hcg hi hclr (by omega) (by omega)
    (ext2Clusteracct fs.fpg contigsumsize ((s.gd cg).bbmap.clrbit i) i 1 (s.gd cg).cs)
  have htotal : u32 ((s.sb.fbcount : ℤ) + 1) = s.sb.fbcount + 1 := by
    have hle : s.sb.fbcount + 1 ≤ fs.gcount * fs.fpg := hcounters.counts_le.1
    have hcovers := hg.covers.2
    have hbcount := hg.bcount_le
    have hfpg := hg.fpg_lt
    exact_mod_cast u32_of_lt (show s.sb.fbcount + 1 < 2 ^ 32 by omega)
  rw [← hbno] at hmoves
  rw [hroom, htotal]
  exact .given hused ⟨⟨hcounters, h.flights⟩, hmoves, fun hnone => by cases hnone⟩

/-- **`ext2_vfree` on a consistent volume.** -/
theorem stepVfree_ok (hg : Geometry fs) (h : Consistent fs s) (hpos : 0 < ino)
    (hle : ino ≤ fs.gcount * fs.ipg) :
    GiveOk fs s ((AllocOp.vfree ino isDir read).gives fs) (stepVfree fs ino isDir read s) := by
  have hinodes := hg.inodes_lt
  have hrange : ¬u32 ((fs.ipg * fs.gcount : ℕ) : ℤ) < u32 (ino : ℤ) := by
    rw [Nat.mul_comm, u32_of_lt hinodes, u32_of_lt (by omega)]
    omega
  obtain ⟨hcg, hino⟩ := exists_inodeAt hg hpos hle
  have hi : (ino - 1) % fs.ipg < fs.ipg := Nat.mod_lt _ hg.ipg_pos
  have hmem := mem_free_inode s.gd hcg hi
  rw [← hino] at hmem
  rw [AllocOp.gives, stepVfree, if_neg hrange, hg.writable]
  generalize (ino - 1) / fs.ipg = cg at hcg hino hmem ⊢
  generalize (ino - 1) % fs.ipg = i at hi hino hmem ⊢
  by_cases hread : read = false
  · rw [if_pos hread, if_pos hread]
    exact .ignored
  rw [if_neg hread, if_neg hread]
  simp only [and_true]
  by_cases hclr : (s.gd cg).ibmap.isclr i = true
  · rw [if_pos hclr]
    exact .panics (hmem.2 hclr)
  rw [if_neg hclr]
  have hused : Number.inode ino ∉ free fs s.gd := fun hfree => hclr (hmem.1 hfree)
  replace hclr : (s.gd cg).ibmap.isclr i = false := by simpa using hclr
  have hroom : ((s.gd cg).nifree + 1) % 2 ^ 16 = (s.gd cg).nifree + 1 := by
    rw [(h.counters.group cg hcg).nifree]
    exact room_of_set hi hclr hg.ipg_lt
  obtain ⟨hcounters, hmoves⟩ := h.counters.give_inode hcg hi hclr
    (if isDir then ((s.gd cg).ndirs + (2 ^ 16 - 1)) % 2 ^ 16 else (s.gd cg).ndirs)
    (if isDir then u32 (s.sb.totalDir - 1) else s.sb.totalDir)
  have htotal : u32 ((s.sb.ficount : ℤ) + 1) = s.sb.ficount + 1 := by
    have hcounts : s.sb.ficount + 1 ≤ fs.gcount * fs.ipg := hcounters.counts_le.2
    exact_mod_cast u32_of_lt (show s.sb.ficount + 1 < 2 ^ 32 by omega)
  rw [← hino] at hmoves
  rw [hroom, htotal]
  exact .given hused ⟨⟨hcounters, h.flights⟩, hmoves, fun hnone => by cases hnone⟩

end Try

/-! ### A volume of one group -/

theorem oneGroup_bcount : 33 < 2 ^ 32 := by decide

/-- A volume whose only group has 32 blocks and 16 inodes. -/
def oneGroup : MExt2fs := { volumeFrom 1 with
  bcount := 33
  bcount_lt := oneGroup_bcount }

/-- Twenty free blocks, twelve free inodes, and no search. -/
def oneGroupState : AllocSys := ⟨fun _ => sampleGroup, ⟨20, 12, 1⟩, []⟩

theorem oneGroup_geometry : Geometry oneGroup :=
  ⟨by decide, by decide, by decide, by decide, by decide, by decide, by decide, by decide, by decide,
    by decide, rfl⟩

theorem oneGroup_consistent : Consistent oneGroup oneGroupState := by
  have hgcount : oneGroup.gcount = 1 := by decide
  refine ⟨⟨fun cg hcg => ?_, ?_, ?_⟩, fun f hf => by cases hf⟩
  · obtain rfl : cg = 0 := by omega
    exact ⟨by decide, by decide, by decide⟩
  · rw [hgcount, Finset.sum_range_one]
    rfl
  · rw [hgcount, Finset.sum_range_one]
    rfl

/-! ### Runs -/

section Runs

variable {fs : MExt2fs} {contigsumsize : ℕ} {s t : AllocSys} {op : AllocOp} {ops : List AllocOp}
  {h : List (Event Number)}

theorem groupsFrom_lt {cg c : ℕ} (hcg : cg < fs.gcount) (hc : c ∈ groupsFrom fs cg) : c < fs.gcount := by
  rcases List.mem_cons.1 hc with rfl | hc
  · exact hcg
  · exact hashGroups_lt hcg hc

theorem allocPref_nonneg (fs : MExt2fs) {bpref : ℤ} (hpref : 0 ≤ bpref) : 0 ≤ allocPref fs bpref := by
  unfold allocPref
  split
  · exact le_rfl
  · exact hpref

/-- `ext2_alloc` starts in a group of the volume. -/
theorem allocGroup_lt (hg : Geometry fs) {bpref : ℤ} {ino : ℕ} (hpref : 0 ≤ bpref) (hpos : 0 < ino)
    (hle : ino ≤ fs.gcount * fs.ipg) : allocGroup fs (allocPref fs bpref) ino < fs.gcount := by
  unfold allocGroup
  split
  next => exact (exists_inodeAt hg hpos hle).1
  next hne =>
    have hnonneg := allocPref_nonneg fs hpref
    have hlt : allocPref fs bpref < fs.bcount := by
      unfold allocPref at hne ⊢
      split at hne
      · exact absurd rfl hne
      · rw [if_neg ‹_›]
        omega
    obtain ⟨b, hb⟩ := Int.eq_ofNat_of_zero_le hnonneg
    rw [hb] at hne hlt ⊢
    obtain ⟨cg, hcg, i, -, -, hdtog, -⟩ := exists_blockAt hg (b := b) (by omega) (by omega)
    rw [hdtog, Int.toNat_natCast]
    exact hcg

/-- A search that starts joins the others. -/
theorem cons_flightOk (h : Consistent fs s) {f : Flight} (hf : FlightOk fs f) :
    ∀ f' ∈ f :: s.flights, FlightOk fs f' := by
  intro f' hf'
  rcases List.mem_cons.1 hf' with rfl | hmem
  · exact hf
  · exact h.flights f' hmem

theorem startAlloc_ok (hg : Geometry fs) (h : Consistent fs s) {suser : Bool} {size ino : ℕ} {bpref : ℤ}
    (hpref : 0 ≤ bpref) (hpos : 0 < ino) (hle : ino ≤ fs.gcount * fs.ipg) :
    StepOk fs s (startAlloc fs suser size bpref ino s) none := by
  unfold startAlloc
  split
  · exact StepOk.of_flights h.counters h.flights
  · exact StepOk.of_flights h.counters (cons_flightOk h
      ⟨fun c hc => groupsFrom_lt (allocGroup_lt hg hpref hpos hle) hc, allocPref_nonneg fs hpref⟩)

theorem startValloc_ok (h : Consistent fs s) {isDir : Bool} {cg : ℕ} (hcg : cg < fs.gcount) :
    StepOk fs s (startValloc fs isDir cg s) none := by
  unfold startValloc
  split
  · exact StepOk.of_flights h.counters h.flights
  · exact StepOk.of_flights h.counters (cons_flightOk h
      ⟨fun c hc => groupsFrom_lt hcg hc, Int.natCast_nonneg _⟩)

/-- Where giving back has a result, the step is in order. -/
theorem GiveOk.stepOk {gives : Option Number} {r : Option (AllocSys × Option (Event Number))}
    (hgive : GiveOk fs s gives r) (h : Consistent fs s) {e : Option (Event Number)}
    (hr : r = some (t, e)) : StepOk fs s t e := by
  cases hgive with
  | ignored =>
    cases hr
    exact StepOk.of_flights h.counters h.flights
  | panics => cases hr
  | given hused hok =>
    cases hr
    exact hok

/-- It has none exactly when the number is free. -/
theorem GiveOk.eq_none_iff {gives : Option Number} {r : Option (AllocSys × Option (Event Number))}
    (hgive : GiveOk fs s gives r) : r = none ↔ ∃ n, gives = some n ∧ n ∈ free fs s.gd := by
  cases hgive with
  | ignored => simp
  | panics hfree => simpa using hfree
  | given hused hok => simpa using hused

/-- **One step**, whatever it is. -/
theorem step_ok (hg : Geometry fs) (h : Consistent fs s) (hok : op.Ok fs) {e : Option (Event Number)}
    (hstep : step fs contigsumsize op s = some (t, e)) : StepOk fs s t e := by
  cases op with
  | alloc suser size bpref ino =>
    cases hstep
    exact startAlloc_ok hg h hok.1 hok.2.1 hok.2.2
  | valloc isDir cg =>
    cases hstep
    exact startValloc_ok h hok
  | tryGroup k before read => exact stepTry_ok hg h hstep
  | blkfree bno read => exact (stepBlkfree_ok hg h hok.1 hok.2).stepOk h hstep
  | vfree ino isDir read => exact (stepVfree_ok hg h hok.1 hok.2).stepOk h hstep

/-- The machine implements the pool. -/
theorem step_simulates (hg : Geometry fs) (contigsumsize : ℕ) :
    Simulates (step fs contigsumsize) (AllocOp.Ok fs) (Consistent fs) fun s => free fs s.gd :=
  fun _ _ _ _ h hok hstep => ⟨(step_ok hg h hok hstep).consistent, (step_ok hg h hok hstep).moves⟩

/-- What a run keeps, and what its history says. -/
theorem run_invariants (hg : Geometry fs) (hs : Consistent fs s) (hok : ∀ op ∈ ops, op.Ok fs)
    (hrun : run (step fs contigsumsize) ops s = some (t, h)) :
    Consistent fs t ∧ Legal (free fs s.gd) h ∧ free fs t.gd = after (free fs s.gd) h ∧ Exclusive h ∧
      (h = [] → t.gd = s.gd ∧ t.sb = s.sb) := by
  obtain ⟨hcons, hlegal, hfree⟩ := (step_simulates hg contigsumsize).run_legal hs hok hrun
  refine ⟨hcons, hlegal, hfree, hlegal.exclusive, fun hnil => ?_⟩
  have hquiet := (step_simulates hg contigsumsize).run_quiet (f := fun s => (s.gd, s.sb))
    (fun a s s' hs ha hstep => Prod.ext_iff.2 ((step_ok hg hs ha hstep).quiet rfl)) hs hok (hnil ▸ hrun)
  exact Prod.ext_iff.1 hquiet

/-- **Runs of the allocator**: the counters go on agreeing with the bitmaps, only free numbers are handed
out, only those in use are taken back, none is handed out twice unless it was given back in between, and
a run without an event has changed no bitmap and no counter. -/
theorem alloc_runs (hg : Geometry fs) (hs : Consistent fs s) (hok : ∀ op ∈ ops, op.Ok fs)
    (hrun : run (step fs contigsumsize) ops s = some (t, h)) :
    Consistent fs t ∧ Legal (free fs s.gd) h ∧ free fs t.gd = after (free fs s.gd) h ∧ Exclusive h ∧
      (h = [] → t.gd = s.gd ∧ t.sb = s.sb) :=
  run_invariants hg hs hok hrun

/-- From the state on no counter goes wrong, nothing is handed out twice, and nothing that is kept is handed
out before it was given back. -/
def Safe (fs : MExt2fs) (kept : Number → Prop) (s : ℕ → AllocSys) : Prop :=
  ∀ contigsumsize ops t h, (∀ op ∈ ops, op.Ok fs) →
    run (step fs contigsumsize) ops (s contigsumsize) = some (t, h) →
      Consistent fs t ∧ Exclusive h ∧ ∀ n, kept n → .give n ∉ h → .take n ∉ h

theorem safe_of_consistent {kept : Number → Prop} {s : ℕ → AllocSys} (hg : Geometry fs)
    (hs : ∀ c, Consistent fs (s c)) (hkept : ∀ c n, kept n → n ∉ free fs (s c).gd) : Safe fs kept s := by
  intro contigsumsize ops t h hok hrun
  obtain ⟨hcons, hlegal, -, hex, -⟩ := run_invariants hg (hs contigsumsize) hok hrun
  exact ⟨hcons, hex, fun n hn hgive => hlegal.take_not_mem (hkept contigsumsize n hn) hgive⟩

/-- Two searches at once, and the block that the one took is given back. -/
theorem alloc_runs_oneGroup : ∃ t, Consistent oneGroup t ∧
    run (step oneGroup 4) [.alloc false 1024 2 1, .valloc false 0, .tryGroup 1 20 true,
      .tryGroup 0 12 true, .blkfree 13 true] oneGroupState =
        some (t, [.take (.block 13), .take (.inode 5), .give (.block 13)]) := by
  have hok : ∀ op ∈ [AllocOp.alloc false 1024 2 1, .valloc false 0, .tryGroup 1 20 true,
      .tryGroup 0 12 true, .blkfree 13 true], op.Ok oneGroup := by
    simp only [List.forall_mem_cons, AllocOp.Ok]
    exact ⟨by decide, by decide, trivial, trivial, by decide, List.forall_mem_nil _⟩
  have hhistory : (run (step oneGroup 4) [.alloc false 1024 2 1, .valloc false 0, .tryGroup 1 20 true,
      .tryGroup 0 12 true, .blkfree 13 true] oneGroupState).map Prod.snd =
        some [.take (.block 13), .take (.inode 5), .give (.block 13)] := by decide +kernel
  obtain ⟨⟨t, h⟩, hrun, rfl⟩ := Option.map_eq_some_iff.1 hhistory
  exact ⟨t, (alloc_runs oneGroup_geometry oneGroup_consistent hok hrun).1, hrun⟩

/-- A search never panics. -/
theorem stepTry_ne_none (hg : Geometry fs) (h : Consistent fs s) (k before : ℕ) (read : Bool) :
    stepTry fs contigsumsize k before read s ≠ none := by
  unfold stepTry
  cases hk : s.flights[k]? with
  | none => exact Option.some_ne_none _
  | some f =>
    have hf : FlightOk fs f := h.flights f (List.mem_of_getElem? hk)
    cases hgroups : f.groups with
    | nil => simp only [hgroups, ne_eq, reduceCtorEq, not_false_eq_true]
    | cons cg rest =>
      have hcg : cg < fs.gcount := hf.groups cg (hgroups ▸ List.mem_cons_self ..)
      simp only [hgroups]
      rcases f.search_spec hg h.counters hf hcg contigsumsize before read with
        ⟨-, hret⟩ | ⟨number, g, sb, n, hret, hne, -⟩
      · rw [hret]
        exact Option.some_ne_none _
      · rw [hret]
        simp only [if_pos hne]
        exact Option.some_ne_none _

/-- A step panics exactly when it gives back a number that is free. -/
theorem step_eq_none_iff (hg : Geometry fs) (h : Consistent fs s) (hok : op.Ok fs) :
    step fs contigsumsize op s = none ↔ ∃ n, op.gives fs = some n ∧ n ∈ free fs s.gd := by
  cases op with
  | alloc suser size bpref ino => simp [step, AllocOp.gives]
  | valloc isDir cg => simp [step, AllocOp.gives]
  | tryGroup k before read =>
    simp only [AllocOp.gives, reduceCtorEq, false_and, exists_false, iff_false]
    exact stepTry_ne_none hg h k before read
  | blkfree bno read => exact (stepBlkfree_ok hg h hok.1 hok.2).eq_none_iff
  | vfree ino isDir read => exact (stepVfree_ok hg h hok.1 hok.2).eq_none_iff

/-- **A run panics if and only if** it comes to give back a number that its history has left free. -/
theorem alloc_panics_iff (hg : Geometry fs) (hs : Consistent fs s) (hok : ∀ op ∈ ops, op.Ok fs) :
    run (step fs contigsumsize) ops s = none ↔ ∃ before op behind t h n,
      ops = before ++ op :: behind ∧ run (step fs contigsumsize) before s = some (t, h) ∧
        op.gives fs = some n ∧ n ∈ after (free fs s.gd) h := by
  have hlast : ∀ {before op behind t h}, ops = before ++ op :: behind →
      run (step fs contigsumsize) before s = some (t, h) →
      (step fs contigsumsize op t = none ↔
        ∃ n, op.gives fs = some n ∧ n ∈ after (free fs s.gd) h) := by
    intro before op behind t h heq hrun
    have hbefore : ∀ op ∈ before, op.Ok fs := fun op hop =>
      hok op (heq ▸ List.mem_append_left _ hop)
    have hop : op.Ok fs := hok op (heq ▸ List.mem_append_right _ (List.mem_cons_self ..))
    obtain ⟨hcons, -, hfree⟩ := (step_simulates hg contigsumsize).run_legal hs hbefore hrun
    rw [step_eq_none_iff hg hcons hop, hfree]
  rw [run_eq_none_iff]
  constructor
  · rintro ⟨before, op, behind, t, h, heq, hrun, hstep⟩
    obtain ⟨n, hn⟩ := (hlast heq hrun).1 hstep
    exact ⟨before, op, behind, t, h, n, heq, hrun, hn⟩
  · rintro ⟨before, op, behind, t, h, n, heq, hrun, hn⟩
    exact ⟨before, op, behind, t, h, heq, hrun, (hlast heq hrun).2 ⟨n, hn⟩⟩

/-- The block 12 is given back, and then given back again. -/
theorem alloc_panics_iff_oneGroup :
    run (step oneGroup 4) [.blkfree 12 true, .blkfree 12 true] oneGroupState = none := by
  have hok : ∀ op ∈ [AllocOp.blkfree 12 true, .blkfree 12 true], op.Ok oneGroup := by
    simp only [List.forall_mem_cons, AllocOp.Ok]
    exact ⟨by decide, by decide, List.forall_mem_nil _⟩
  have hhistory : (run (step oneGroup 4) [.blkfree 12 true] oneGroupState).map Prod.snd =
      some [.give (.block 12)] := by decide +kernel
  obtain ⟨⟨t, h⟩, hrun, rfl⟩ := Option.map_eq_some_iff.1 hhistory
  exact (alloc_panics_iff oneGroup_geometry oneGroup_consistent hok).2
    ⟨[.blkfree 12 true], .blkfree 12 true, [], t, [.give (.block 12)], .block 12, rfl, hrun,
      by decide, Set.mem_insert _ _⟩

/-! ### A search alone -/

/-- The steps of a search that runs alone, from its first group to its end: each try reads its bitmap and
the counter as it is. -/
def searchOps (kind : Kind) (gd : ℕ → Group) (groups : List ℕ) : List AllocOp :=
  groups.map (fun cg => .tryGroup 0 (kind.counter (gd cg)) true) ++ [.tryGroup 0 0 true]

/-- Without a search there is nothing to try. -/
theorem run_idle (kind : Kind) (gd : ℕ → Group) (groups : List ℕ) (hidle : s.flights = []) :
    run (step fs contigsumsize) (searchOps kind gd groups) s = some (s, []) := by
  have hstep : ∀ before, step fs contigsumsize (.tryGroup 0 before true) s = some (s, none) := by
    intro before
    rw [step, stepTry, hidle]
    rfl
  induction groups with
  | nil => simp [searchOps, run, hstep]
  | cons cg rest ih =>
    have hrest : searchOps kind gd (cg :: rest) =
        .tryGroup 0 (kind.counter (gd cg)) true :: searchOps kind gd rest := rfl
    simp only [hrest, run, hstep, Option.bind_some, ih, Option.map_some, Option.toList_none,
      List.nil_append]

/-- **A search alone** takes a number of the first of its groups that has one. -/
theorem run_search (hg : Geometry fs) {gd : ℕ → Group} {sb : Totals} (h : CountersOk fs gd sb)
    (contigsumsize : ℕ) (kind : Kind) (pref : ℤ) (groups : List ℕ) (hf : FlightOk fs ⟨kind, pref, groups⟩) :
    ∃ t h, run (step fs contigsumsize) (searchOps kind gd groups) ⟨gd, sb, [⟨kind, pref, groups⟩]⟩ =
        some (t, h) ∧ t.flights = [] ∧
      ((∀ cg ∈ groups, kind.counter (gd cg) = 0) ∧ h = [] ∨
        ∃ before cg behind n, groups = before ++ cg :: behind ∧
          (∀ c ∈ before, kind.counter (gd c) = 0) ∧ kind.At fs cg n ∧ h = [.take n]) := by
  induction groups generalizing pref with
  | nil => exact ⟨⟨gd, sb, []⟩, [], rfl, rfl, .inl ⟨List.forall_mem_nil _, rfl⟩⟩
  | cons cg rest ih =>
    have hcg : cg < fs.gcount := hf.groups cg (List.mem_cons_self ..)
    have hrest : searchOps kind gd (cg :: rest) =
        .tryGroup 0 (kind.counter (gd cg)) true :: searchOps kind gd rest := rfl
    rcases Flight.search_spec (s := ⟨gd, sb, [⟨kind, pref, cg :: rest⟩]⟩) hg h hf hcg contigsumsize
        (kind.counter (gd cg)) true with
      ⟨hzero, hret⟩ | ⟨number, g, sb', n, hret, hne, htaken, hat, -, -⟩
    · have hcounter : kind.counter (gd cg) = 0 := by simpa using hzero
      have hstep : step fs contigsumsize (.tryGroup 0 (kind.counter (gd cg)) true)
          ⟨gd, sb, [⟨kind, pref, cg :: rest⟩]⟩ = some (⟨gd, sb, [⟨kind, 0, rest⟩]⟩, none) := by
        simp [step, stepTry, hret]
      obtain ⟨t, hist, hrun, hidle, hfound⟩ := ih 0
        ⟨fun c hc => hf.groups c (List.mem_cons_of_mem cg hc), le_rfl⟩
      refine ⟨t, hist, ?_, hidle, ?_⟩
      · simp only [hrest, run, hstep, Option.bind_some, hrun, Option.map_some, Option.toList_none,
          List.nil_append]
      · rcases hfound with ⟨hnone, hnil⟩ | ⟨before, c, behind, n, heq, hbefore, hat, hhist⟩
        · exact .inl ⟨List.forall_mem_cons.2 ⟨hcounter, hnone⟩, hnil⟩
        · exact .inr ⟨cg :: before, c, behind, n, congrArg (cg :: ·) heq,
            List.forall_mem_cons.2 ⟨hcounter, hbefore⟩, hat, hhist⟩
    · have hstep : step fs contigsumsize (.tryGroup 0 (kind.counter (gd cg)) true)
          ⟨gd, sb, [⟨kind, pref, cg :: rest⟩]⟩ =
            some (⟨Function.update gd cg g, sb', []⟩, some (.take n)) := by
        simp [step, stepTry, hret, hne, htaken]
      refine ⟨⟨Function.update gd cg g, sb', []⟩, [.take n], ?_, rfl,
        .inr ⟨[], cg, rest, n, rfl, List.forall_mem_nil _, hat, rfl⟩⟩
      simp only [hrest, run, hstep, Option.bind_some,
        run_idle (s := ⟨Function.update gd cg g, sb', []⟩) kind gd rest rfl, Option.map_some,
        Option.toList_some, List.append_nil]

/-- Where the groups count something together, a search that goes through all of them finds it. -/
theorem exists_counter {gd : ℕ → Group} (kind : Kind) (cg : ℕ) (hcg : cg < fs.gcount)
    (hne : ∑ c ∈ Finset.range fs.gcount, kind.counter (gd c) ≠ 0) :
    ∃ c ∈ groupsFrom fs cg, kind.counter (gd c) ≠ 0 := by
  obtain ⟨c, hc, hcounter⟩ := Finset.exists_ne_zero_of_sum_ne_zero hne
  exact ⟨c, mem_hashGroups hcg (Finset.mem_range.1 hc), hcounter⟩

/-- A call of `ext2_alloc` alone. -/
def allocOps (fs : MExt2fs) (suser : Bool) (bpref : ℤ) (ino : ℕ) (s : AllocSys) : List AllocOp :=
  .alloc suser fs.bsize bpref ino ::
    searchOps .block s.gd (groupsFrom fs (allocGroup fs (allocPref fs bpref) ino))

/-- A call of `ext2_valloc` alone. -/
def vallocOps (fs : MExt2fs) (isDir : Bool) (cg : ℕ) (s : AllocSys) : List AllocOp :=
  .valloc isDir cg :: searchOps (.inode isDir) s.gd (groupsFrom fs cg)

/-- What a call alone hands out: nothing if it is refused, else a number of the first of the groups that
has one. -/
def Hands (fs : MExt2fs) (s : AllocSys) (kind : Kind) (refused : Prop) (groups : List ℕ)
    (h : List (Event Number)) : Prop :=
  refused ∧ h = [] ∨ ¬refused ∧ ∃ before cg behind n, groups = before ++ cg :: behind ∧
    (∀ c ∈ before, kind.counter (s.gd c) = 0) ∧ kind.At fs cg n ∧ h = [.take n]

/-- `ext2_alloc` alone. -/
theorem alloc_alone (hg : Geometry fs) (hs : Consistent fs s) (hidle : s.flights = []) (suser : Bool)
    {bpref : ℤ} {ino : ℕ} (hpref : 0 ≤ bpref) (hpos : 0 < ino) (hle : ino ≤ fs.gcount * fs.ipg) :
    ∃ t h, run (step fs contigsumsize) (allocOps fs suser bpref ino s) s = some (t, h) ∧
      t.flights = [] ∧ Hands fs s .block (Refused fs s.sb.fbcount suser fs.bsize)
        (groupsFrom fs (allocGroup fs (allocPref fs bpref) ino)) h := by
  have hgroup := allocGroup_lt hg hpref hpos hle
  by_cases hrefused : Refused fs s.sb.fbcount suser fs.bsize
  · refine ⟨s, [], ?_, hidle, .inl ⟨hrefused, rfl⟩⟩
    simp only [allocOps, run, step, startAlloc, if_pos hrefused, Option.bind_some,
      run_idle _ _ _ hidle, Option.map_some, Option.toList_none, List.nil_append]
  · have hstart : startAlloc fs suser fs.bsize bpref ino s =
        ⟨s.gd, s.sb, [⟨.block, allocPref fs bpref,
          groupsFrom fs (allocGroup fs (allocPref fs bpref) ino)⟩]⟩ := by
      rw [startAlloc, if_neg hrefused, hidle]
    obtain ⟨t, h, hrun, hend, hfound⟩ := run_search hg hs.counters contigsumsize .block
      (allocPref fs bpref) (groupsFrom fs (allocGroup fs (allocPref fs bpref) ino))
      ⟨fun c hc => groupsFrom_lt hgroup hc, allocPref_nonneg fs hpref⟩
    refine ⟨t, h, ?_, hend, .inr ⟨hrefused, ?_⟩⟩
    · simp only [allocOps, run, step, hstart, Option.bind_some, hrun, Option.map_some,
        Option.toList_none, List.nil_append]
    · refine hfound.resolve_left fun hnone => ?_
      have hcount : s.sb.fbcount ≠ 0 := fun hzero => hrefused (.inl ⟨rfl, hzero⟩)
      rw [hs.counters.fbcount] at hcount
      obtain ⟨c, hc, hcounter⟩ := exists_counter .block _ hgroup hcount
      exact hcounter (hnone.1 c hc)

/-- `ext2_valloc` alone. -/
theorem valloc_alone (hg : Geometry fs) (hs : Consistent fs s) (hidle : s.flights = []) (isDir : Bool)
    {cg : ℕ} (hcg : cg < fs.gcount) :
    ∃ t h, run (step fs contigsumsize) (vallocOps fs isDir cg s) s = some (t, h) ∧
      t.flights = [] ∧ Hands fs s (.inode isDir) (s.sb.ficount = 0) (groupsFrom fs cg) h := by
  by_cases hzero : s.sb.ficount = 0
  · refine ⟨s, [], ?_, hidle, .inl ⟨hzero, rfl⟩⟩
    simp only [vallocOps, run, step, startValloc, if_pos hzero, Option.bind_some,
      run_idle _ _ _ hidle, Option.map_some, Option.toList_none, List.nil_append]
  · have hstart : startValloc fs isDir cg s =
        ⟨s.gd, s.sb, [⟨.inode isDir, u32 (cg * fs.ipg + 1 : ℕ), groupsFrom fs cg⟩]⟩ := by
      rw [startValloc, if_neg hzero, hidle]
    obtain ⟨t, h, hrun, hend, hfound⟩ := run_search hg hs.counters contigsumsize (.inode isDir)
      (u32 (cg * fs.ipg + 1 : ℕ)) (groupsFrom fs cg)
      ⟨fun c hc => groupsFrom_lt hcg hc, Int.natCast_nonneg _⟩
    refine ⟨t, h, ?_, hend, .inr ⟨hzero, ?_⟩⟩
    · simp only [vallocOps, run, step, hstart, Option.bind_some, hrun, Option.map_some,
        Option.toList_none, List.nil_append]
    · refine hfound.resolve_left fun hnone => ?_
      rw [hs.counters.ficount] at hzero
      obtain ⟨c, hc, hcounter⟩ := exists_counter (.inode isDir) _ hcg hzero
      exact hcounter (hnone.1 c hc)

/-- **`ext2_alloc` and `ext2_valloc` alone** fail only if the superblock refuses them: otherwise they take
a block or an inode, of the first group in the order of `ext2_hashalloc` that has one, and leave no
search behind. -/
theorem alone_succeeds (hg : Geometry fs) (hs : Consistent fs s) (hidle : s.flights = []) (suser : Bool)
    {bpref : ℤ} {ino : ℕ} (hpref : 0 ≤ bpref) (hpos : 0 < ino) (hle : ino ≤ fs.gcount * fs.ipg)
    (isDir : Bool) {cg : ℕ} (hcg : cg < fs.gcount) :
    (∃ t h, run (step fs contigsumsize) (allocOps fs suser bpref ino s) s = some (t, h) ∧
      t.flights = [] ∧ Hands fs s .block (Refused fs s.sb.fbcount suser fs.bsize)
        (groupsFrom fs (allocGroup fs (allocPref fs bpref) ino)) h) ∧
    ∃ t h, run (step fs contigsumsize) (vallocOps fs isDir cg s) s = some (t, h) ∧
      t.flights = [] ∧ Hands fs s (.inode isDir) (s.sb.ficount = 0) (groupsFrom fs cg) h :=
  ⟨alloc_alone hg hs hidle suser hpref hpos hle, valloc_alone hg hs hidle isDir hcg⟩

theorem twoGroups_bcount : 65 < 2 ^ 32 := by decide

/-- A volume of two groups of 32 blocks and 16 inodes. -/
def twoGroups : MExt2fs := { volumeFrom 1 with
  bcount := 65
  bcount_lt := twoGroups_bcount }

/-- A group with nothing free. -/
def fullGroup : Group := { sampleGroup with
  bbmap := fun _ => 0xff
  ibmap := fun _ => 0xff
  nbfree := 0
  nifree := 0 }

/-- The first group is full. -/
def secondFree : AllocSys := ⟨fun cg => if cg = 0 then fullGroup else sampleGroup, ⟨20, 12, 2⟩, []⟩

theorem twoGroups_geometry : Geometry twoGroups :=
  ⟨by decide, by decide, by decide, by decide, by decide, by decide, by decide, by decide, by decide,
    by decide, rfl⟩

theorem secondFree_consistent : Consistent twoGroups secondFree := by
  have hgcount : twoGroups.gcount = 2 := by decide
  refine ⟨⟨fun cg hcg => ?_, ?_, ?_⟩, fun f hf => by cases hf⟩
  · obtain rfl | rfl : cg = 0 ∨ cg = 1 := by omega
    · exact ⟨by decide, by decide, by decide⟩
    · exact ⟨by decide, by decide, by decide⟩
  · rw [hgcount]
    decide
  · rw [hgcount]
    decide

/-- With the first group full, a block and an inode of the second one are taken. -/
theorem alone_succeeds_secondGroup :
    (∃ t h, run (step twoGroups 4) (allocOps twoGroups true 0 1 secondFree) secondFree = some (t, h) ∧
      t.flights = [] ∧ Hands twoGroups secondFree .block
        (Refused twoGroups secondFree.sb.fbcount true twoGroups.bsize) [0, 1] h) ∧
    ∃ t h, run (step twoGroups 4) (vallocOps twoGroups true 0 secondFree) secondFree = some (t, h) ∧
      t.flights = [] ∧ Hands twoGroups secondFree (.inode true) (secondFree.sb.ficount = 0) [0, 1] h := by
  have hgroups : groupsFrom twoGroups 0 = [0, 1] := by decide +kernel
  have halone := @alone_succeeds twoGroups 4 secondFree twoGroups_geometry secondFree_consistent rfl true 0 1 (le_refl 0)
    Nat.one_pos (by decide : 1 ≤ twoGroups.gcount * twoGroups.ipg) true 0 (by decide)
  rwa [show allocGroup twoGroups (allocPref twoGroups 0) 1 = 0 by decide, hgroups] at halone

end Runs

end Ext2fs.GroupMap.Allocator
