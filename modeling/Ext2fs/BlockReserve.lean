import Ext2fs.GroupAlloc

/-!
# The blocks reserved for the super-user

`ext2_alloc` compares `e2fs_fbcount` with `e2fs_rbcount` when it starts; `ext2_alloccg` takes the block
and counts it later, and the lock of the mount is released in between.  The state of the machine is the
groups, the counters of the volume and the allocations that are in flight between the two; every step is
one of the places where the lock is held.

* `step_inv` — what one step keeps, where the test leaves a block for each allocation in flight;
* `reserve_runs` — **over every run**, an ordinary user takes a block only while `statfs` reports one for
  him, and leaves the reserve.
-/

namespace Ext2fs

namespace GroupMap

/-! ### The machine -/

/-- `f_bavail` of `ext2_statfs_internal`. -/
def bavail (fs : MExt2fs) (fbcount : ℕ) : ℕ := if fs.rbcount < fbcount then fbcount - fs.rbcount else 0

/-- The tests of `ext2_alloc` that send it to `nospace`. -/
def Refused (fs : MExt2fs) (fbcount : ℕ) (suser : Bool) (size : ℕ) : Prop :=
  size = fs.bsize ∧ fbcount = 0 ∨ suser = false ∧ fbcount < fs.rbcount

instance (fs : MExt2fs) (fbcount : ℕ) (suser : Bool) (size : ℕ) :
    Decidable (Refused fs fbcount suser size) :=
  inferInstanceAs (Decidable (_ ∨ _))

/-- The volume, and the allocations in flight: for each, whether the caller is the super-user. -/
structure AllocState where
  gd : ℕ → Group
  sb : Totals
  flights : List Bool

/-- The steps, by the places where the lock is held. -/
inductive AllocStep where
  /-- `ext2_alloc` up to the search -/
  | request (suser : Bool) (size : ℕ)
  /-- one call of `ext2_alloccg` for the flight `k` -/
  | tryGroup (k cg : ℕ) (bpref : ℤ) (before : ℕ) (read : Bool)
  /-- the search of the flight `k` has found nothing -/
  | giveUp (k : ℕ)
  /-- `ext2_blkfree` -/
  | blkfree (bno : ℕ) (read : Bool)

/-- `ext2_blkfree`; the panic "freeing free block" has no result. -/
def ext2Blkfree (fs : MExt2fs) (contigsumsize : ℕ) (bno : ℕ) (read : Bool) (s : AllocState) :
    Option AllocState :=
  let cg := fs.dtog64 bno
  if fs.bcount ≤ u32 bno then some s
  else if read = false then some s
  else
    let bno := fs.dtogd64 bno
    if cg < 0 ∨ bno < 0 then none
    else
      let gd := s.gd cg.toNat
      if gd.bbmap.isclr bno.toNat then none
      else
        let map := gd.bbmap.clrbit bno.toNat
        let gd := { gd with
          bbmap := map
          nbfree := (gd.nbfree + 1) % 2 ^ 16
          cs := ext2Clusteracct fs.fpg contigsumsize map bno.toNat 1 gd.cs }
        some { s with
          gd := Function.update s.gd cg.toNat gd
          sb := { s.sb with fbcount := u32 (s.sb.fbcount + 1) } }

/-- One step; a panic has no result, and neither has a step of a flight there is not. -/
def allocStep (fs : MExt2fs) (contigsumsize : ℕ) (s : AllocState) : AllocStep → Option AllocState
  | .request suser size =>
      if Refused fs s.sb.fbcount suser size then some s
      else some { s with flights := suser :: s.flights }
  | .tryGroup k cg bpref before read =>
      if k < s.flights.length then
        match ext2Alloccg fs contigsumsize cg bpref before read (s.gd cg) s.sb with
        | .ret number gd sb =>
            some { gd := Function.update s.gd cg gd
                   sb := sb
                   flights := if number = 0 then s.flights else s.flights.eraseIdx k }
        | .corrupted => none
        | .outside => none
      else none
  | .giveUp k => if k < s.flights.length then some { s with flights := s.flights.eraseIdx k } else none
  | .blkfree bno read => ext2Blkfree fs contigsumsize bno read s

/-- The caller of the flight that takes a block in a step. -/
def taker (fs : MExt2fs) (s : AllocState) : AllocStep → Option Bool
  | .tryGroup k cg bpref before read =>
      if before ≠ 0 ∧ read = true ∧ (s.gd cg).nbfree ≠ 0 then
        match searchBlock fs (s.gd cg).bbmap cg bpref with
        | .bit _ => s.flights[k]?
        | _ => none
      else none
  | _ => none

/-- A step in which an ordinary user takes a block: `statfs` reports a free one before, and the reserve
is left. -/
def ReserveKept (fs : MExt2fs) (s : AllocState) (a : AllocStep) (s' : AllocState) : Prop :=
  taker fs s a = some false → 0 < bavail fs s.sb.fbcount ∧ fs.rbcount ≤ s'.sb.fbcount

/-- All steps of a run keep the reserve. -/
def RunKeeps (fs : MExt2fs) (contigsumsize : ℕ) : AllocState → List AllocStep → Prop
  | _, [] => True
  | s, a :: as => ∀ s', allocStep fs contigsumsize s a = some s' →
      ReserveKept fs s a s' ∧ RunKeeps fs contigsumsize s' as

/-- The test leaves a block above the reserve for each allocation in flight, unless only the super-user
allocates; and the counters do not run out of their range. -/
def Leaves (fs : MExt2fs) (s : AllocState) : AllocStep → Prop
  | .request suser size =>
      Refused fs s.sb.fbcount suser size ∨ fs.rbcount = 0 ∨ false ∉ suser :: s.flights ∨
        fs.rbcount + s.flights.length < s.sb.fbcount
  | .tryGroup _ cg _ _ _ =>
      ((s.gd cg).nbfree ≠ 0 → s.sb.fbcount ≠ 0) ∧
        (u32 (cg * fs.fpg + fs.firstDblock : ℕ) = 0 → (s.gd cg).bbmap.isset 0 = true)
  | .giveUp _ => True
  | .blkfree _ _ => s.sb.fbcount + 1 < 2 ^ 32

/-- All steps of a run meet the condition. -/
def RunLeaves (fs : MExt2fs) (contigsumsize : ℕ) : AllocState → List AllocStep → Prop
  | _, [] => True
  | s, a :: as => Leaves fs s a ∧
      ∀ s', allocStep fs contigsumsize s a = some s' → RunLeaves fs contigsumsize s' as

/-! ### What a step keeps -/

/-- There is a free block above the reserve for each allocation in flight, unless only the super-user
allocates. -/
structure Backed (fs : MExt2fs) (s : AllocState) : Prop where
  range : s.sb.fbcount < 2 ^ 32
  backed : fs.rbcount = 0 ∨ false ∉ s.flights ∨ fs.rbcount + s.flights.length ≤ s.sb.fbcount

section Steps

variable {fs : MExt2fs} {map : Bitmap} {c cg k i before : ℕ} {bpref : ℤ} {read : Bool} {gd : Group}
  {sb : Totals} {s s' : AllocState} {a : AllocStep} {as : List AllocStep}

theorem eightPasses_clear {bytes start : ℕ} (h : eightPasses map bytes start = some i) :
    map.isclr i = true := by
  have hpass : ∀ a rounds, eightLoop map rounds a 0 0 = some i → map.isclr i = true :=
    fun a rounds h => ((pass_spec map a rounds).1 i h).2.1 0 (by decide)
  unfold eightPasses at h
  split at h
  next bno hfirst =>
    cases h
    exact hpass _ _ hfirst
  next =>
    split at h
    next => exact hpass _ _ h
    next => cases h

theorem searchFrom_clear (h : searchFrom fs map bpref = .bit i) : map.isclr i = true := by
  simp only [searchFrom] at h
  split at h
  next => cases h
  next =>
    split at h
    next bno hpass =>
      cases h
      exact eightPasses_clear hpass
    next =>
      simp only [ext2Mapsearch] at h
      split at h
      next => cases h
      next =>
        rcases searchBytes_spec map _ _ with ⟨bno, heq, hclear, -⟩ | ⟨heq, -⟩
        · cases heq.symm.trans h
          exact hclear
        · cases heq.symm.trans h

/-- The search comes to clear bits only. -/
theorem searchBlock_clear (h : searchBlock fs map cg bpref = .bit i) : map.isclr i = true := by
  simp only [searchBlock] at h
  generalize (if fs.dtog64 bpref ≠ cg then 0 else bpref) = bpref at h
  split at h
  · split at h
    · cases h
    · split at h
      next hclr =>
        cases h
        exact hclr
      next => exact searchFrom_clear h
  · exact searchFrom_clear h

/-- The two ends of `ext2_alloccg` that return: nothing is found, or a block is taken. -/
theorem alloccg_cases {number : ℤ} {gd' : Group} {sb' : Totals}
    (h : ext2Alloccg fs c cg bpref before read gd sb = .ret number gd' sb') :
    number = 0 ∧ sb' = sb ∧ ¬(before ≠ 0 ∧ read = true ∧ gd.nbfree ≠ 0) ∨
      ∃ i, searchBlock fs gd.bbmap cg bpref = .bit i ∧ before ≠ 0 ∧ read = true ∧ gd.nbfree ≠ 0 ∧
        number = blockNumber fs cg i ∧ sb'.fbcount = u32 (sb.fbcount - 1) := by
  unfold ext2Alloccg at h
  split at h
  next hb =>
    cases h
    exact .inl ⟨rfl, rfl, fun hc => hc.1 hb⟩
  next hb =>
    split at h
    next hr =>
      cases h
      exact .inl ⟨rfl, rfl, fun hc => by simp [hr] at hc⟩
    next hr =>
      split at h
      next hn =>
        cases h
        exact .inl ⟨rfl, rfl, fun hc => hc.2.2 hn⟩
      next hn =>
        split at h
        next i hi =>
          cases h
          exact .inr ⟨i, hi, hb, by simpa using hr, hn, rfl, rfl⟩
        next => cases h
        next => cases h

/-- A free ends with the old count or with one block more. -/
theorem blkfree_count {bno : ℕ} (h : ext2Blkfree fs c bno read s = some s') :
    s'.flights = s.flights ∧ (s'.sb.fbcount = s.sb.fbcount ∨ s'.sb.fbcount = u32 (s.sb.fbcount + 1)) := by
  simp only [ext2Blkfree] at h
  split at h
  · cases h
    exact ⟨rfl, .inl rfl⟩
  split at h
  · cases h
    exact ⟨rfl, .inl rfl⟩
  split at h
  · cases h
  split at h
  · cases h
  · cases h
    exact ⟨rfl, .inr rfl⟩

theorem request_inv {suser : Bool} {size : ℕ} (h : Backed fs s)
    (hleaves : Leaves fs s (.request suser size))
    (hstep : allocStep fs c s (.request suser size) = some s') : Backed fs s' := by
  simp only [allocStep] at hstep
  split at hstep
  next href =>
    cases hstep
    exact h
  next href =>
    cases hstep
    refine ⟨h.range, ?_⟩
    rcases hleaves.resolve_left href with hzero | hsuper | hroom
    · exact .inl hzero
    · exact .inr (.inl hsuper)
    · exact .inr (.inr (by simp only [List.length_cons]; omega))

theorem giveUp_inv (h : Backed fs s) (hstep : allocStep fs c s (.giveUp k) = some s') :
    Backed fs s' := by
  simp only [allocStep] at hstep
  split at hstep
  next hk =>
    cases hstep
    refine ⟨h.range, h.backed.imp_right (Or.imp (mt List.mem_of_mem_eraseIdx) fun hroom => ?_)⟩
    have := List.length_eraseIdx_of_lt hk
    simp only
    omega
  next => cases hstep

theorem blkfree_inv {bno : ℕ} (h : Backed fs s) (hleaves : Leaves fs s (.blkfree bno read))
    (hstep : ext2Blkfree fs c bno read s = some s') : Backed fs s' := by
  obtain ⟨hflights, hcount⟩ := blkfree_count hstep
  have hadd : u32 ((s.sb.fbcount : ℤ) + 1) = s.sb.fbcount + 1 := by
    have := u32_of_lt hleaves
    rwa [Nat.cast_add, Nat.cast_one] at this
  have hrange := h.range
  have hlt : s.sb.fbcount + 1 < 2 ^ 32 := hleaves
  rw [hadd] at hcount
  refine ⟨by omega, ?_⟩
  rw [hflights]
  exact h.backed.imp_right (Or.imp_right fun hroom => by omega)

theorem tryGroup_inv (h : Backed fs s) (hleaves : Leaves fs s (.tryGroup k cg bpref before read))
    (hstep : allocStep fs c s (.tryGroup k cg bpref before read) = some s') :
    Backed fs s' ∧ ReserveKept fs s (.tryGroup k cg bpref before read) s' := by
  simp only [allocStep] at hstep
  split at hstep
  next hk =>
    split at hstep
    next number gd' sb' hret =>
      cases hstep
      rcases alloccg_cases hret with ⟨hzero, rfl, hnot⟩ | ⟨i, hfound, hb, hr, hn, hnumber, hcount⟩
      · -- nothing is found; the flight goes on
        refine ⟨⟨h.range, by rw [if_pos hzero]; exact h.backed⟩, fun ht => ?_⟩
        rw [taker, if_neg hnot] at ht
        cases ht
      · -- a block is taken, and it is not the one with the number 0
        have hpos := hleaves.1 hn
        have hne : number ≠ 0 := fun hzero => by
          rw [hnumber, blockNumber] at hzero
          have hset := hleaves.2 (by omega)
          have hclear := searchBlock_clear hfound
          rw [show i = 0 by omega] at hclear
          rw [Bitmap.isset_eq_not, hclear] at hset
          cases hset
        have hsub : u32 ((s.sb.fbcount : ℤ) - 1) = s.sb.fbcount - 1 := by
          have := u32_of_lt (show s.sb.fbcount - 1 < 2 ^ 32 by have := h.range; omega)
          rwa [Nat.cast_sub (by omega), Nat.cast_one] at this
        have hlength := List.length_eraseIdx_of_lt hk
        have hrange := h.range
        rw [hsub] at hcount
        refine ⟨⟨by simp only; omega, ?_⟩, fun ht => ?_⟩
        · rw [if_neg hne]
          refine h.backed.imp_right (Or.imp (mt List.mem_of_mem_eraseIdx) fun hroom => ?_)
          simp only
          omega
        · rw [taker, if_pos ⟨hb, hr, hn⟩, hfound] at ht
          have hmem : false ∈ s.flights := List.mem_of_getElem? ht
          have habove : fs.rbcount < s.sb.fbcount := by
            rcases h.backed with hzero | hsuper | hroom
            · omega
            · exact absurd hmem hsuper
            · omega
          refine ⟨?_, by simp only; omega⟩
          rw [bavail, if_pos habove]
          omega
    next => cases hstep
    next => cases hstep
  next => cases hstep

/-- **One step** keeps a block for each allocation in flight, and so the reserve. -/
theorem step_inv (h : Backed fs s) (hleaves : Leaves fs s a) (hstep : allocStep fs c s a = some s') :
    Backed fs s' ∧ ReserveKept fs s a s' := by
  cases a with
  | request suser size => exact ⟨request_inv h hleaves hstep, fun ht => by cases ht⟩
  | tryGroup k cg bpref before read => exact tryGroup_inv h hleaves hstep
  | giveUp k => exact ⟨giveUp_inv h hstep, fun ht => by cases ht⟩
  | blkfree bno read => exact ⟨blkfree_inv h hleaves hstep, fun ht => by cases ht⟩

/-- **The reserve over a run**: where every test leaves a block above the reserve for each allocation in
flight, an ordinary user takes a block only while `statfs` reports one, and leaves the reserve. -/
theorem reserve_runs (hrange : s.sb.fbcount < 2 ^ 32) (hquiet : s.flights = [])
    (hleaves : RunLeaves fs c s as) : RunKeeps fs c s as := by
  have hback : Backed fs s := ⟨hrange, .inr (.inl (by simp [hquiet]))⟩
  clear hquiet hrange
  induction as generalizing s with
  | nil => trivial
  | cons a as ih =>
    intro s' hstep
    obtain ⟨hback', hkept⟩ := step_inv hback hleaves.1 hstep
    exact ⟨hkept, ih (hleaves.2 s' hstep) hback'⟩

end Steps

/-- A volume with a reserve. -/
def reserveVolume (rbcount : ℕ) : MExt2fs := { volumeFrom 1 with rbcount := rbcount }

/-- Twenty free blocks, and no allocation in flight. -/
def quietState : AllocState := ⟨fun _ => sampleGroup, ⟨20, 12, 1⟩, []⟩

/-- An ordinary user takes one of twenty free blocks, ten of which are reserved. -/
theorem reserve_runs_sample : RunKeeps (reserveVolume 10) 4 quietState
    [.request false 1024, .tryGroup 0 0 2 20 true, .blkfree 13 true] := by
  refine reserve_runs (by decide) rfl ⟨.inr (.inr (.inr (by decide))), fun s' h => ?_⟩
  cases h
  refine ⟨⟨by decide, by decide⟩, fun s' h => ?_⟩
  cases h
  exact ⟨(by decide : 19 + 1 < 2 ^ 32), fun s' _ => trivial⟩

/-- All twenty free blocks are reserved: the test lets an ordinary user pass, and he takes one. -/
theorem reserve_taken : (reserveVolume 20).rbcount ≤ quietState.sb.fbcount ∧
    ¬RunKeeps (reserveVolume 20) 4 quietState [.request false 1024, .tryGroup 0 0 2 20 true] := by
  refine ⟨by decide, fun h => ?_⟩
  have hrequest := h { quietState with flights := [false] } rfl
  have hkept := (hrequest.2 _ rfl).1 (by decide)
  exact absurd hkept.1 (by decide)

end GroupMap

end Ext2fs
