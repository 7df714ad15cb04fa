import Ext2fs.Balloc
import Ext2fs.Lib.Mutex

/-!
# The mount lock in the allocator

`um_lock` guards the counters of free blocks and inodes.  This file follows it through `ext2_alloc.c`:
`ext2_alloccg` and `ext2_nodealloccg` release it for the read of a bitmap and take it again, unless
they found something, so the state it is left in depends on the result.  What a search meets in a
group is a `GroupTry`; a bitmap without the free bit its counter promises is a panic, and a panic does
not return.

* `ext2Hashalloc` — the search over the groups, for any allocator;
* `ext2Alloc_ends` — `ext2_alloc` returns with the lock free, **on success as on failure**, unless the
  number of the block it found is 0 or does not fit `int32_t`;
* `ext2Valloc_ends` — `ext2_valloc` always keeps to the rules.
-/

namespace Ext2fs

open Mutex

/-! ### The groups -/

/-- `e2fs_gcount`, in the 32 bits of `compute_sb_data`. -/
def MExt2fs.gcount (fs : MExt2fs) : ℕ :=
  u32 ((fs.bcount : ℤ) - fs.firstDblock + fs.bpg - 1) / fs.bpg

/-- `dtog`: the group of a block. -/
def MExt2fs.dtog (fs : MExt2fs) (b : ℕ) : ℕ := (b - fs.firstDblock) / fs.bpg

/-- The groups of the quadratic rehash. -/
def rehashGroups (gcount i cg : ℕ) : List ℕ :=
  if 0 < i ∧ i < gcount then
    let cg := if gcount ≤ cg + i then cg + i - gcount else cg + i
    cg :: rehashGroups gcount (i * 2) cg
  else []
termination_by gcount - i

/-- The groups of the brute force search, `rounds` of them from `cg` on. -/
def bruteGroups (gcount : ℕ) : ℕ → ℕ → List ℕ
  | 0, _ => []
  | rounds + 1, cg =>
      cg :: bruteGroups gcount rounds (if cg + 1 = gcount then 0 else cg + 1)

/-- The groups `ext2_hashalloc` tries after the preferred one. -/
def hashGroups (gcount cg : ℕ) : List ℕ :=
  rehashGroups gcount 1 cg ++ bruteGroups gcount (gcount - 2) ((cg + 2) % gcount)

section

variable {m : Type → Type} [Monad m]

/-- The loops of `ext2_hashalloc`: the groups are tried until one of them has something.  The tries
are numbered, so that the rest of the kernel can answer each on its own. -/
def tryGroups (allocator : ℕ → ℕ → ℕ → m ℕ) : ℕ → List ℕ → m ℕ
  | _, [] => pure 0
  | n, cg :: rest => do
      let result ← allocator n cg 0
      if result ≠ 0 then pure result else tryGroups allocator (n + 1) rest

/-- `ext2_hashalloc`: the preferred group, the quadratic rehash and the brute force search. -/
def ext2Hashalloc (gcount cg pref : ℕ) (allocator : ℕ → ℕ → ℕ → m ℕ) : m ℕ := do
  let result ← allocator 0 cg pref
  if result ≠ 0 then pure result else tryGroups allocator 1 (hashGroups gcount cg)

end

/-! ### The functions -/

/-- What one try of a group meets. -/
structure GroupTry (β : Type) where
  /-- the counter of the group is not 0 -/
  nfree : Bool
  /-- the read of the bitmap -/
  read : Bool
  /-- the counter is still not 0 after the read -/
  still : Bool
  /-- the bit the search of the bitmap comes to -/
  bit : β

/-- What one call of `ext2_alloc` meets. -/
structure AllocEnv where
  /-- `e2fs_fbcount` -/
  fbcount : ℕ
  /-- the caller is the super-user -/
  suser : Bool
  /-- the group of the inode -/
  inoCg : ℕ
  /-- the tries, by their number and their group; `ext2_mapsearch` may find nothing -/
  group : ℕ → ℕ → GroupTry (Option ℕ)

/-- The part the two allocators of a group share: the lock is held on entry, and still held on return
unless something was found. -/
def allocGroup {β : Type} (try_ : GroupTry β) (found : β → Option ℕ) : Locked ℕ :=
  if try_.nfree = false then pure 0
  else do
    Locked.unlock
    if try_.read = false then do
      Locked.lock
      pure 0
    else if try_.still = false then do
      Locked.lock
      pure 0
    else match found try_.bit with
      | none => do
          Locked.lock
          pure 0
      | some result => do
          Locked.lock
          Locked.unlock
          pure result

/-- `ext2_alloccg`: a block of a group is allocated. -/
def ext2Alloccg (fs : MExt2fs) (env : AllocEnv) (n cg _bpref : ℕ) : Locked ℕ :=
  allocGroup (env.group n cg) fun bit =>
    bit.map fun bno => u32 (cg * fs.fpg + fs.firstDblock : ℕ) + bno

/-- `ext2_nodealloccg`: an inode of a group is allocated. -/
def ext2Nodealloccg (fs : MExt2fs) (group : ℕ → ℕ → GroupTry ℕ) (n cg _ipref : ℕ) : Locked ℕ :=
  allocGroup (group n cg) fun ipref => some (u32 (cg * fs.ipg : ℕ) + ipref + 1)

/-- The tests of `ext2_alloc` before the search. -/
def AllocEnv.Refuses (fs : MExt2fs) (env : AllocEnv) (size : ℕ) : Prop :=
  size = fs.bsize ∧ env.fbcount = 0 ∨ env.suser = false ∧ env.fbcount < fs.rbcount

instance (fs : MExt2fs) (env : AllocEnv) (size : ℕ) : Decidable (env.Refuses fs size) :=
  inferInstanceAs (Decidable (_ ∨ _))

/-- The search `ext2_alloc` makes for a preference. -/
def AllocEnv.search (fs : MExt2fs) (env : AllocEnv) (bpref : ℕ) : Locked ℕ := do
  let bpref := if fs.bcount ≤ bpref then 0 else bpref
  let cg := if bpref = 0 then env.inoCg else fs.dtog bpref
  Locked.assertOwned
  ext2Hashalloc fs.gcount cg bpref (ext2Alloccg fs env)

/-- The block `ext2_alloc` comes to, before it is narrowed to `int32_t`. -/
def AllocEnv.choice (fs : MExt2fs) (env : AllocEnv) (size bpref : ℕ) : Option ℕ :=
  if env.Refuses fs size then none
  else
    let result := (env.search fs bpref).value
    if u32 result = 0 then none else some (u32 result)

/-- `nospace`: the lock is released for the error. -/
def nospace : Locked (Option (ℕ × World)) := do
  Locked.unlock
  pure none

/-- What `ext2_alloc` makes of the number the search returns, kept in `int32_t bno`. -/
def keepBlock (fs : MExt2fs) (lbn : ℕ) (w : World) (result : ℕ) : Locked (Option (ℕ × World)) :=
  if 0 < i32 result then pure (w.takeBlock fs lbn (some (i32 result).toNat)) else nospace

/-- `ext2_alloc`: the lock is held on entry. -/
def ext2Alloc (fs : MExt2fs) (env : AllocEnv) (lbn bpref size : ℕ) (w : World) :
    Locked (Option (ℕ × World)) := do
  Locked.assertOwned
  if env.Refuses fs size then nospace
  else env.search fs bpref >>= keepBlock fs lbn w

/-- `ext2_blkpref`: the lock is held. -/
def blkpref (fs : MExt2fs) (ip : Inode) (lbn indx : ℕ) (bap : ℕ → ℕ) (blocknr : ℕ) : Locked ℕ := do
  Locked.assertOwned
  pure (ext2Blkpref fs ip lbn indx bap blocknr)

/-- The lock in `ext2_blkfree`: it is taken for the counters only.  A call for a block that is free
already is a panic. -/
def blkfreeOps (fs : MExt2fs) (bitmapOk : ℤ → Bool) (bno : ℤ) : List Op :=
  if fs.bcount ≤ u32 bno then []
  else if bitmapOk bno = false then []
  else [.lock, .unlock]

/-- `ext2_blkfree` -/
def ext2Blkfree (fs : MExt2fs) (bitmapOk : ℤ → Bool) (bno : ℤ) (w : World) : Locked World :=
  ⟨w.blkfree fs bitmapOk bno, blkfreeOps fs bitmapOk bno⟩

/-- `ext2_vfree`: an inode is freed; it always returns 0. -/
def ext2Vfree (inodeBitmap : Bool) : Locked Unit :=
  if inodeBitmap = false then pure ()
  else do
    Locked.lock
    Locked.unlock

/-- What one call of `ext2_valloc` meets. -/
structure VallocEnv where
  /-- `e2fs_ficount` -/
  ficount : ℕ
  /-- the group `ext2_dirpref` selects -/
  dirpref : ℕ
  /-- the group of the parent -/
  parentCg : ℕ
  /-- the tries of `ext2_nodealloccg` -/
  group : ℕ → ℕ → GroupTry ℕ
  /-- `ext2_vget_typed` of the new inode -/
  vget : Option Errno
  /-- the read of the inode bitmap in `ext2_vfree` -/
  inodeBitmap : Bool

/-- `ext2_dirpref`: the lock is held. -/
def dirpref (env : VallocEnv) : Locked ℕ := do
  Locked.assertOwned
  pure env.dirpref

/-- `noinodes`: the lock is released for the error. -/
def noinodes : Locked (Except Errno ℕ) := do
  Locked.unlock
  pure (.error .enospc)

/-- What `ext2_valloc` makes of the number the search returns: the inode is brought into core, and
freed again if that fails. -/
def vallocGet (env : VallocEnv) (ino : ℕ) : Locked (Except Errno ℕ) :=
  if ino = 0 then noinodes
  else match env.vget with
    | some e => ext2Vfree env.inodeBitmap >>= fun _ => pure (.error e)
    | none => pure (.ok ino)

/-- The search `ext2_valloc` makes from a group on. -/
def vallocFrom (fs : MExt2fs) (env : VallocEnv) (cg : ℕ) : Locked (Except Errno ℕ) := do
  Locked.assertOwned
  ext2Hashalloc fs.gcount cg (cg * fs.ipg + 1) (ext2Nodealloccg fs env.group) >>= vallocGet env

/-- `ext2_valloc`; the number of the new inode, which has come into core. -/
def ext2Valloc (fs : MExt2fs) (env : VallocEnv) (isDir : Bool) : Locked (Except Errno ℕ) := do
  Locked.lock
  if env.ficount = 0 then noinodes
  else if isDir then dirpref env >>= vallocFrom fs env
  else vallocFrom fs env env.parentCg

/-! ### The search -/

section Search

variable {β : Type}

/-- What a try of a group finds. -/
def GroupTry.hit (t : GroupTry β) (found : β → Option ℕ) : Option ℕ :=
  if t.nfree = true ∧ t.read = true ∧ t.still = true then found t.bit else none

/-- Nothing found: the lock is held again. -/
theorem allocGroup_of_hit_none {t : GroupTry β} {found : β → Option ℕ} (h : t.hit found = none) :
    (allocGroup t found).value = 0 ∧ after true (allocGroup t found).ops = some true := by
  obtain ⟨nfree, read, still, bit⟩ := t
  unfold allocGroup
  cases nfree with
  | false => exact ⟨rfl, rfl⟩
  | true =>
    cases read with
    | false => exact ⟨rfl, rfl⟩
    | true =>
      cases still with
      | false => exact ⟨rfl, rfl⟩
      | true =>
        have hbit : found bit = none := by simpa [GroupTry.hit] using h
        simp only [hbit]
        exact ⟨rfl, rfl⟩

/-- Something found: the lock is free. -/
theorem allocGroup_of_hit {t : GroupTry β} {found : β → Option ℕ} {r : ℕ}
    (h : t.hit found = some r) :
    (allocGroup t found).value = r ∧ after true (allocGroup t found).ops = some false := by
  obtain ⟨nfree, read, still, bit⟩ := t
  have hall : (nfree = true ∧ read = true ∧ still = true) ∧ found bit = some r := by
    unfold GroupTry.hit at h
    split at h
    · next hcond => exact ⟨hcond, h⟩
    · exact absurd h (by simp)
  obtain ⟨⟨rfl, rfl, rfl⟩, hbit⟩ := hall
  unfold allocGroup
  simp only [hbit]
  exact ⟨rfl, rfl⟩

/-- With the lock free already, a try passes the group by or releases what is not held. -/
theorem allocGroup_of_free (t : GroupTry β) (found : β → Option ℕ) :
    (allocGroup t found).value = 0 ∧ (allocGroup t found).ops = [] ∨
      after false (allocGroup t found).ops = none := by
  unfold allocGroup
  split
  · exact .inl ⟨rfl, rfl⟩
  · exact .inr rfl

/-- The number the first successful try comes to. -/
def firstHit (try_ : ℕ → ℕ → GroupTry β) (found : ℕ → β → Option ℕ) : ℕ → List ℕ → Option ℕ
  | _, [] => none
  | n, cg :: rest =>
      match (try_ n cg).hit (found cg) with
      | some r => some r
      | none => firstHit try_ found (n + 1) rest

variable (try_ : ℕ → ℕ → GroupTry β) (found : ℕ → β → Option ℕ)

/-- The allocator of a search, by number, group and preference. -/
def groupAllocator (n cg _pref : ℕ) : Locked ℕ := allocGroup (try_ n cg) (found cg)

theorem tryGroups_cons (n cg : ℕ) (rest : List ℕ) :
    tryGroups (groupAllocator try_ found) n (cg :: rest) =
      (allocGroup (try_ n cg) (found cg) >>= fun result =>
        if result ≠ 0 then pure result
        else tryGroups (groupAllocator try_ found) (n + 1) rest) := rfl

/-- The loops of `ext2_hashalloc` without a hit: the lock is held, as on entry. -/
theorem tryGroups_of_none (n : ℕ) (groups : List ℕ) (h : firstHit try_ found n groups = none) :
    (tryGroups (groupAllocator try_ found) n groups).value = 0 ∧
      after true (tryGroups (groupAllocator try_ found) n groups).ops = some true := by
  induction groups generalizing n with
  | nil => exact ⟨rfl, rfl⟩
  | cons cg rest ih =>
    rw [firstHit] at h
    cases hhit : (try_ n cg).hit (found cg) with
    | some r => rw [hhit] at h; exact absurd h (by simp)
    | none =>
      rw [hhit] at h
      obtain ⟨hval, hops⟩ := allocGroup_of_hit_none hhit
      obtain ⟨ihval, ihops⟩ := ih (n + 1) h
      rw [tryGroups_cons, Locked.value_bind, Locked.ops_bind, hval, if_neg (by simp)]
      refine ⟨ihval, ?_⟩
      rw [after_append, hops]
      exact ihops

/-- Once the lock is free the loops find nothing, or release what is not held. -/
theorem tryGroups_of_free (n : ℕ) (groups : List ℕ) :
    (tryGroups (groupAllocator try_ found) n groups).value = 0 ∧
        after false (tryGroups (groupAllocator try_ found) n groups).ops = some false ∨
      after false (tryGroups (groupAllocator try_ found) n groups).ops = none := by
  induction groups generalizing n with
  | nil => exact .inl ⟨rfl, rfl⟩
  | cons cg rest ih =>
    rw [tryGroups_cons, Locked.value_bind, Locked.ops_bind, after_append]
    rcases allocGroup_of_free (try_ n cg) (found cg) with ⟨hval, hops⟩ | hbroken
    · rw [hval, hops, if_neg (by simp)]
      exact ih (n + 1)
    · rw [hbroken]
      exact .inr rfl

/-- The loops of `ext2_hashalloc` with a hit: the lock is free, and the number is returned.  A hit of
number 0 is not noticed, and the search goes on without the lock. -/
theorem tryGroups_of_hit (n : ℕ) (groups : List ℕ) (b : ℕ)
    (h : firstHit try_ found n groups = some b) :
    (tryGroups (groupAllocator try_ found) n groups).value = b ∧
        after true (tryGroups (groupAllocator try_ found) n groups).ops = some false ∨
      b = 0 ∧ after true (tryGroups (groupAllocator try_ found) n groups).ops = none := by
  induction groups generalizing n with
  | nil => exact absurd h (by simp [firstHit])
  | cons cg rest ih =>
    rw [firstHit] at h
    rw [tryGroups_cons, Locked.value_bind, Locked.ops_bind, after_append]
    cases hhit : (try_ n cg).hit (found cg) with
    | some r =>
      rw [hhit] at h
      obtain rfl : r = b := by simpa using h
      obtain ⟨hval, hops⟩ := allocGroup_of_hit hhit
      rw [hval, hops]
      by_cases hr : r = 0
      · rw [if_neg (by simpa using hr)]
        rcases tryGroups_of_free try_ found (n + 1) rest with ⟨hv, ho⟩ | hbroken
        · exact .inl ⟨hv.trans hr.symm, ho⟩
        · exact .inr ⟨hr, hbroken⟩
      · rw [if_pos hr]
        exact .inl ⟨rfl, rfl⟩
    | none =>
      rw [hhit] at h
      obtain ⟨hval, hops⟩ := allocGroup_of_hit_none hhit
      rw [hval, hops, if_neg (by simp)]
      exact ih (n + 1) h

/-- `ext2_hashalloc` tries the preferred group first. -/
theorem hashalloc_groupAllocator (gcount cg pref : ℕ) :
    ext2Hashalloc gcount cg pref (groupAllocator try_ found) =
      tryGroups (groupAllocator try_ found) 0 (cg :: hashGroups gcount cg) := rfl

/-- A caller of `ext2_hashalloc` that releases the lock when nothing was found, and keeps to the rules
with the lock free when `p` holds of the number that was found. -/
theorem hashalloc_ends {γ : Type} (gcount cg pref : ℕ) (f : ℕ → Locked γ) (p : ℕ → Prop)
    (hnone : EndsFrom true (f 0).ops True) (hzero : ¬ p 0)
    (hf : ∀ b, EndsFrom false (f b).ops (p b)) :
    EndsFrom true ((ext2Hashalloc gcount cg pref (groupAllocator try_ found)) >>= f).ops
      (∀ b, firstHit try_ found 0 (cg :: hashGroups gcount cg) = some b → p b) := by
  rw [hashalloc_groupAllocator, Locked.ops_bind]
  cases hfirst : firstHit try_ found 0 (cg :: hashGroups gcount cg) with
  | none =>
    obtain ⟨hval, hops⟩ := tryGroups_of_none try_ found 0 _ hfirst
    refine ⟨fun _ => ?_, fun h => absurd (fun b hb => absurd hb (by simp)) h⟩
    rw [after_append, hops, hval]
    exact hnone.free trivial
  | some b =>
    have hiff : (∀ b', some b = some b' → p b') ↔ p b := by simp
    refine EndsFrom.of_iff ?_ hiff.symm
    rcases tryGroups_of_hit try_ found 0 _ b hfirst with ⟨hval, hops⟩ | ⟨rfl, hops⟩
    · constructor
      · intro hb
        rw [after_append, hops, hval]
        exact (hf b).free hb
      · intro hb
        rw [after_append, hops, hval]
        exact (hf b).broken hb
    · refine ⟨fun hb => absurd hb hzero, fun _ => ?_⟩
      rw [after_append, hops]
      rfl

end Search

/-! ### `ext2_alloc` -/

section Alloc

variable (fs : MExt2fs) (env : AllocEnv)

/-- The number of the bit `ext2_alloccg` finds in a group. -/
def blockOfBit (cg : ℕ) (bit : Option ℕ) : Option ℕ :=
  bit.map fun bno => u32 (cg * fs.fpg + fs.firstDblock : ℕ) + bno

/-- The group a preference selects, the inode's own without one. -/
def AllocEnv.preferred (bpref : ℕ) : ℕ :=
  if fs.bcount ≤ bpref ∨ bpref = 0 then env.inoCg else fs.dtog bpref

/-- The number of the first free block the search for a preference comes to. -/
def AllocEnv.firstBlock (bpref : ℕ) : Option ℕ :=
  firstHit env.group (blockOfBit fs) 0
    (env.preferred fs bpref :: hashGroups fs.gcount (env.preferred fs bpref))

/-- The call makes no search, or its search does not come to a block whose number is 0 or is lost in
`int32_t bno`. -/
def AllocEnv.Fits (bpref size : ℕ) : Prop :=
  env.Refuses fs size ∨ ∀ b, env.firstBlock fs bpref = some b → 0 < i32 b

/-- The search is the one of `ext2_hashalloc`, and begins with its assertion. -/
theorem search_eq (bpref : ℕ) :
    env.search fs bpref = (Locked.assertOwned >>= fun _ =>
      ext2Hashalloc fs.gcount (env.preferred fs bpref) (if fs.bcount ≤ bpref then 0 else bpref)
        (groupAllocator env.group (blockOfBit fs))) := by
  unfold AllocEnv.search AllocEnv.preferred
  have hcg : (if (if fs.bcount ≤ bpref then 0 else bpref) = 0 then env.inoCg
        else fs.dtog (if fs.bcount ≤ bpref then 0 else bpref)) =
      if fs.bcount ≤ bpref ∨ bpref = 0 then env.inoCg else fs.dtog bpref := by
    by_cases hle : fs.bcount ≤ bpref <;> simp [hle]
  simp only [hcg]
  rfl

theorem nospace_ends : EndsFrom true nospace.ops True := Ends.unlock_bind (Ends.pure none)

theorem keepBlock_ends (lbn : ℕ) (w : World) (result : ℕ) :
    Ends (keepBlock fs lbn w result).ops (0 < i32 result) := by
  unfold keepBlock
  by_cases h : 0 < i32 result
  · rw [if_pos h]
    exact (Ends.pure _).of_iff (by simp [h])
  · rw [if_neg h]
    exact Ends.unlock_free_bind.of_iff (by simp [h])

theorem search_bind_ops {γ : Type} (bpref : ℕ) (f : ℕ → Locked γ) :
    (env.search fs bpref >>= f).ops = (Locked.assertOwned >>= fun _ =>
      ext2Hashalloc fs.gcount (env.preferred fs bpref) (if fs.bcount ≤ bpref then 0 else bpref)
        (groupAllocator env.group (blockOfBit fs)) >>= f).ops := by
  rw [search_eq]
  rfl

theorem not_fits_zero : ¬ 0 < i32 (0 : ℕ) := by
  rw [i32_of_lt (by norm_num) (by norm_num)]
  simp

/-- **The convention of `ext2_alloc`.**  The lock is held on entry and free on return, whether the
call succeeds or fails; a search that comes to a block whose number is 0 or negative as an `int32_t`
has released the lock already when `ext2_alloc` releases it for its error. -/
theorem ext2Alloc_ends (lbn bpref size : ℕ) (w : World) :
    EndsFrom true (ext2Alloc fs env lbn bpref size w).ops (env.Fits fs bpref size) := by
  unfold AllocEnv.Fits ext2Alloc
  by_cases href : env.Refuses fs size
  · rw [if_pos href]
    exact EndsFrom.assertOwned_bind (nospace_ends.of_iff (by simp [href]))
  · rw [if_neg href]
    have hcond : (env.Refuses fs size ∨ ∀ b, env.firstBlock fs bpref = some b → 0 < i32 b) ↔
        ∀ b, env.firstBlock fs bpref = some b → 0 < i32 b := by simp [href]
    refine EndsFrom.of_iff ?_ hcond.symm
    refine EndsFrom.assertOwned_bind ?_
    rw [search_bind_ops]
    have hnone : keepBlock fs lbn w 0 = nospace := by
      unfold keepBlock
      rw [if_neg not_fits_zero]
    exact EndsFrom.assertOwned_bind (hashalloc_ends env.group (blockOfBit fs) _ _ _
      (keepBlock fs lbn w) (fun b => 0 < i32 b) (by rw [hnone]; exact nospace_ends) not_fits_zero
      (keepBlock_ends fs lbn w))

/-- Without the lock, `ext2_alloc` takes the block its search comes to. -/
theorem ext2Alloc_value (lbn bpref size : ℕ) (w : World) :
    (ext2Alloc fs env lbn bpref size w).value =
      w.takeBlock fs lbn (env.choice fs size bpref) := by
  unfold ext2Alloc AllocEnv.choice
  rw [Locked.value_bind]
  by_cases href : env.Refuses fs size
  · rw [if_pos href, if_pos href]
    rfl
  · rw [if_neg href, if_neg href, Locked.value_bind]
    generalize (env.search fs bpref).value = result
    unfold keepBlock
    dsimp only
    by_cases hpos : 0 < i32 result
    · have hkept : (i32 result).toNat = u32 result := by
        unfold i32 at hpos ⊢
        unfold u32
        split <;> omega
      rw [if_pos hpos, if_neg (by omega), Locked.value_pure, hkept]
    · rw [if_neg hpos]
      by_cases hzero : u32 result = 0
      · rw [if_pos hzero]
        rfl
      · -- a number from `2 ^ 31` on is negative as an `int32_t`
        have hbig : ¬u32 result < 2 ^ 31 := by
          unfold u32 at hzero ⊢
          unfold i32 at hpos
          split at hpos <;> omega
        have hnone : w.takeBlock fs lbn (some (u32 result)) = none := if_neg fun h => hbig h.2.2.2
        rw [if_neg hzero, hnone]
        rfl

end Alloc

/-! ### The other functions -/

section

variable (fs : MExt2fs)

/-- `ext2_blkfree` keeps to the rules. -/
theorem blkfreeOps_ends (bitmapOk : ℤ → Bool) (bno : ℤ) :
    Ends (blkfreeOps fs bitmapOk bno) True := by
  unfold blkfreeOps
  split
  · exact Ends.nil
  · split
    · exact Ends.nil
    · exact Ends.section

/-- `ext2_vfree` keeps to the rules. -/
theorem ext2Vfree_ends (inodeBitmap : Bool) : Ends (ext2Vfree inodeBitmap).ops True := by
  cases inodeBitmap with
  | false => exact Ends.nil
  | true => exact Ends.section

theorem noinodes_ends : EndsFrom true noinodes.ops True := Ends.unlock_bind (Ends.pure _)

theorem vallocGet_ends (env : VallocEnv) (ino : ℕ) : Ends (vallocGet env ino).ops (ino ≠ 0) := by
  unfold vallocGet
  by_cases h : ino = 0
  · rw [if_pos h]
    exact Ends.unlock_free_bind.of_iff (by simp [h])
  · rw [if_neg h]
    cases env.vget with
    | some e =>
      exact ((ext2Vfree_ends env.inodeBitmap).bind fun _ => Ends.pure _).of_iff (by simp [h])
    | none => exact (Ends.pure _).of_iff (by simp [h])

/-- The numbers of inodes begin with 1, so a search never comes to 0. -/
theorem firstHit_inode_ne_zero (group : ℕ → ℕ → GroupTry ℕ) (n : ℕ) (groups : List ℕ) (b : ℕ)
    (h : firstHit group (fun cg ipref => some (u32 (cg * fs.ipg : ℕ) + ipref + 1)) n groups =
      some b) : b ≠ 0 := by
  induction groups generalizing n with
  | nil => exact absurd h (by simp [firstHit])
  | cons cg rest ih =>
    rw [firstHit] at h
    split at h
    · next r hhit =>
      obtain rfl : r = b := by simpa using h
      unfold GroupTry.hit at hhit
      split at hhit
      · obtain rfl : _ = r := by simpa using hhit
        exact Nat.succ_ne_zero _
      · exact absurd hhit (by simp)
    · exact ih (n + 1) h

theorem vallocFrom_ends (env : VallocEnv) (cg : ℕ) :
    EndsFrom true (vallocFrom fs env cg).ops True := by
  have hsearch := hashalloc_ends env.group
    (fun cg ipref => some (u32 (cg * fs.ipg : ℕ) + ipref + 1)) fs.gcount cg (cg * fs.ipg + 1)
    (vallocGet env) (fun b => b ≠ 0) noinodes_ends (by simp) (vallocGet_ends env)
  refine EndsFrom.assertOwned_bind (hsearch.of_iff ?_)
  simp only [iff_true]
  exact firstHit_inode_ne_zero fs env.group 0 _

theorem dirpref_bind {γ : Type} (env : VallocEnv) (f : ℕ → Locked γ) :
    dirpref env >>= f = Locked.assertOwned >>= fun _ => f env.dirpref := rfl

/-- **`ext2_valloc` keeps to the rules**, whatever the tries of the groups and the fetch of the inode
come to. -/
theorem ext2Valloc_ends (env : VallocEnv) (isDir : Bool) :
    Ends (ext2Valloc fs env isDir).ops True := by
  refine EndsFrom.lock_bind ?_
  split
  · exact noinodes_ends
  · split
    · rw [dirpref_bind]
      exact EndsFrom.assertOwned_bind (vallocFrom_ends fs env env.dirpref)
    · exact vallocFrom_ends fs env env.parentCg

end

end Ext2fs
