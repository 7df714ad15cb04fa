import Ext2fs.DirOps

/-!
# What a lookup finds

* `Directory.Wf` — the directory is well formed, with its entries by block;
* `ScanInv` — what holds at the head of `searchloop`;
* `scan_spec` — the search ends at the name, or at the end of the directory with the slot;
* `EnterReady`, `RemoveReady` — what `i_offset`, `i_count` and `i_endoff` say after a lookup for a new
  name, and after one for an entry that is to go;
* `lookup_create`, `lookup_delete` — the two lookups.
-/

namespace Ext2fs

open Bytes

/-- A well-formed directory: every block is a chain of records, and no name is there twice. -/
structure Directory.Wf (fs : MExt2fs) (d : Directory) (blocks : List (List Dirent)) : Prop where
  size : d.size = blocks.length * fs.bsize
  chain : ∀ (k : ℕ) (hk : k < blocks.length),
    Chain d.data (k * fs.bsize) ((k + 1) * fs.bsize) blocks[k]
  names : (blocks.flatten.map Dirent.name).Nodup

/-- A place between two records of block `k`. -/
structure Cursor (fs : MExt2fs) (m : Mem) (blocks : List (List Dirent)) (k o : ℕ)
    (pre post : List Dirent) : Prop where
  block : blocks[k]? = some (pre ++ post)
  before : Chain m (k * fs.bsize) o pre
  behind : Chain m o ((k + 1) * fs.bsize) post

/-- A slot in block `k` with room for a record of `needed` bytes: its records hold the entries
`run`. -/
structure Slot (fs : MExt2fs) (m : Mem) (blocks : List (List Dirent)) (needed k p q : ℕ)
    (pre run post : List Dirent) : Prop where
  block : blocks[k]? = some (pre ++ run ++ post)
  before : Chain m (k * fs.bsize) p pre
  chain : Chain m p q run
  behind : Chain m q ((k + 1) * fs.bsize) post
  lt : p < q
  room : needed + used run ≤ q - p

/-- The blocks from an offset on hold no entries. -/
def EmptyFrom (fs : MExt2fs) (blocks : List (List Dirent)) (o : ℕ) : Prop :=
  ∀ (k : ℕ) (hk : k < blocks.length), o ≤ k * fs.bsize → blocks[k] = []

section

variable {fs : MExt2fs} {d : Directory} {m : Mem} {blocks : List (List Dirent)}
  {k o : ℕ} {pre post : List Dirent}

namespace Cursor

theorem start (h : d.Wf fs blocks) (hk : k < blocks.length) :
    Cursor fs d.data blocks k (k * fs.bsize) [] blocks[k] where
  block := by simp [hk]
  before := .nil _
  behind := h.chain k hk

/-- The record at a place, and the place behind it. -/
theorem next (h : Cursor fs m blocks k o pre post) (hlt : o < (k + 1) * fs.bsize) :
    Record m o ∧ ∃ post', post = liveAt m o ++ post' ∧ o + e2dReclen m o ≤ (k + 1) * fs.bsize ∧
      Cursor fs m blocks k (o + e2dReclen m o) (pre ++ liveAt m o) post' := by
  obtain ⟨hr, post', rfl, hbehind⟩ := h.behind.uncons hlt
  refine ⟨hr, post', rfl, hbehind.le, ?_, h.before.snoc hr, hbehind⟩
  rw [h.block, List.append_assoc]

theorem lt_length (h : Cursor fs m blocks k o pre post) : k < blocks.length := by
  by_contra hge
  have hnone := List.getElem?_eq_none (Nat.le_of_not_lt hge)
  have hblock := h.block
  rw [hnone] at hblock
  exact absurd hblock (by simp)

/-- A record lies before the end of the directory. -/
theorem lt_size (h : Cursor fs m blocks k o pre post) (hlt : o < (k + 1) * fs.bsize) :
    o < blocks.length * fs.bsize :=
  lt_of_lt_of_le hlt (Nat.mul_le_mul_right _ h.lt_length)

end Cursor

/-! ### The head of the loop -/

/-- The free space that has been counted in block `k` so far. -/
def FreeRun (fs : MExt2fs) (m : Mem) (k o : ℕ) (pre : List Dirent) (s : Scan) : Prop :=
  (s.slotoffset = -1 ∧ s.slotfree = 0) ∨
    ∃ (p : ℕ) (pre' run : List Dirent), s.slotoffset = p ∧ p < o ∧
      Chain m (k * fs.bsize) p pre' ∧ Chain m p o run ∧ pre = pre' ++ run ∧
      s.slotfree + used run = o - p

/-- The slot that has been found. -/
def HasSlot (fs : MExt2fs) (m : Mem) (blocks : List (List Dirent)) (needed : ℕ) (s : Scan) : Prop :=
  ∃ (k p q : ℕ) (pre run post : List Dirent), Slot fs m blocks needed k p q pre run post ∧
    s.slotoffset = p ∧ s.slotsize = q - p

/-- What holds at the head of `searchloop`, in block `k`, when the records of that block so far hold
the entries `pre`; `k` is the number of the blocks at the end of the directory. -/
structure ScanInv (fs : MExt2fs) (m : Mem) (blocks : List (List Dirent)) (name : List UInt8)
    (needed : ℕ) (s : Scan) (k : ℕ) (pre : List Dirent) : Prop where
  place : (∃ post, Cursor fs m blocks k s.offset pre post ∧ s.offset < (k + 1) * fs.bsize) ∨
    (k = blocks.length ∧ s.offset = k * fs.bsize ∧ pre = [])
  base : k * fs.bsize < s.offset → s.base = k * fs.bsize ∧ s.entry = s.offset - k * fs.bsize
  prev : k * fs.bsize < s.offset → ∃ pre', Chain m (k * fs.bsize) s.prevoff pre' ∧
    Record m s.prevoff ∧ s.prevoff + e2dReclen m s.prevoff = s.offset ∧
    pre = pre' ++ liveAt m s.prevoff
  unseen : ∀ j < k, ∀ e ∈ blocks.getD j [], e.name ≠ name
  unseen_pre : ∀ e ∈ pre, e.name ≠ name
  useful_le : s.enduseful ≤ s.offset
  useful : ∀ j < k, s.enduseful ≤ j * fs.bsize → blocks.getD j [] = []
  useful_pre : s.enduseful ≤ k * fs.bsize → pre = []
  free : s.status = .none → k * fs.bsize < s.offset → FreeRun fs m k s.offset pre s
  slot : s.status ≠ .none → 0 < needed → HasSlot fs m blocks needed s

/-- The place where the name was found. -/
structure FoundAt (fs : MExt2fs) (m : Mem) (blocks : List (List Dirent)) (name : List UInt8)
    (s : Scan) (k : ℕ) (pre post : List Dirent) : Prop where
  cursor : Cursor fs m blocks k s.offset pre (direntAt m s.offset :: post)
  lt : s.offset < (k + 1) * fs.bsize
  ep : s.ep = s.offset
  ino : e2dIno m s.offset ≠ 0
  name : e2dName m s.offset = name
  prev : k * fs.bsize < s.offset → ∃ pre', Chain m (k * fs.bsize) s.prevoff pre' ∧
    Record m s.prevoff ∧ s.prevoff + e2dReclen m s.prevoff = s.offset ∧
    pre = pre' ++ liveAt m s.prevoff

/-- The state of the search at a record: `bp` and `entryoffsetinblock` are those of its block. -/
structure AtRecord (fs : MExt2fs) (m : Mem) (s s₁ : Scan) (k : ℕ) (pre : List Dirent) : Prop where
  base : s₁.base = k * fs.bsize
  entry : s₁.entry = s.offset - k * fs.bsize
  offset : s₁.offset = s.offset
  prevoff : s₁.prevoff = s.prevoff
  enduseful : s₁.enduseful = s.enduseful
  status : s₁.status = s.status
  found : s.status ≠ .none → s₁.slotoffset = s.slotoffset ∧ s₁.slotsize = s.slotsize
  free : s.status = .none → FreeRun fs m k s.offset pre s₁

variable {name : List UInt8} {needed : ℕ} {s s₁ : Scan}

theorem mod_eq_zero_iff {B k o : ℕ} (h : k * B ≤ o) (hlt : o < (k + 1) * B) :
    o % B = 0 ↔ o = k * B := by
  have hsub : o % B = o - k * B := by
    obtain ⟨r, rfl⟩ := Nat.exists_eq_add_of_le h
    have hr : r < B := by
      rw [Nat.add_mul, Nat.one_mul] at hlt
      omega
    rw [Nat.add_sub_cancel_left, Nat.add_comm, Nat.add_mul_mod_self_right, Nat.mod_eq_of_lt hr]
  rw [hsub]
  omega

/-- Getting the block, and starting the search for free space again in a new one. -/
theorem ScanInv.atRecord (h : ScanInv fs m blocks name needed s k pre)
    (hc : Cursor fs m blocks k s.offset pre post) (hlt : s.offset < (k + 1) * fs.bsize) :
    AtRecord fs m s ((s.atBlock fs.bsize).restart fs.bsize) k pre := by
  have hle := hc.before.le
  have hzero := mod_eq_zero_iff hle hlt
  have hB := fs.bsize_pos
  by_cases hstart : s.offset = k * fs.bsize
  · have hat : s.atBlock fs.bsize = { s with base := s.offset, entry := 0 } :=
      if_pos (hzero.2 hstart)
    by_cases hnone : s.status = .none
    · have hre : (s.atBlock fs.bsize).restart fs.bsize =
          { s with base := s.offset, entry := 0, slotoffset := -1, slotfree := 0 } := by
        rw [hat]
        exact if_pos ⟨hnone, Nat.zero_mod _⟩
      rw [hre]
      exact ⟨hstart, by rw [hstart, Nat.sub_self], rfl, rfl, rfl, rfl, fun hs => absurd hnone hs,
        fun _ => .inl ⟨rfl, rfl⟩⟩
    · have hre : (s.atBlock fs.bsize).restart fs.bsize = { s with base := s.offset, entry := 0 } := by
        rw [hat]
        exact if_neg fun hs => hnone hs.1
      rw [hre]
      exact ⟨hstart, by rw [hstart, Nat.sub_self], rfl, rfl, rfl, rfl, fun _ => ⟨rfl, rfl⟩,
        fun hs => absurd hs hnone⟩
  · have hgt : k * fs.bsize < s.offset := lt_of_le_of_ne hle (Ne.symm hstart)
    obtain ⟨hbase, hentry⟩ := h.base hgt
    have hat : s.atBlock fs.bsize = s := if_neg (hzero.not.2 hstart)
    have hmod : ¬ s.entry % fs.bsize = 0 := by
      have hlt' : s.entry < fs.bsize := by
        rw [Nat.add_mul, Nat.one_mul] at hlt
        omega
      rw [Nat.mod_eq_of_lt hlt']
      omega
    have hre : (s.atBlock fs.bsize).restart fs.bsize = s := by
      rw [hat]
      exact if_neg fun hs => hmod hs.2
    rw [hre]
    exact ⟨hbase, hentry, rfl, rfl, rfl, rfl, fun _ => ⟨rfl, rfl⟩, fun hs => h.free hs hgt⟩

theorem AtRecord.ep (h : AtRecord fs m s s₁ k pre) (hle : k * fs.bsize ≤ s.offset) :
    s₁.ep = s.offset := by
  show s₁.base + s₁.entry = s.offset
  rw [h.base, h.entry]
  omega

/-- Looking for a slot changes the variables of the slot only. -/
theorem slot_same (s : Scan) (m : Mem) (needed : ℤ) :
    (s.slot m needed).base = s.base ∧ (s.slot m needed).entry = s.entry ∧
      (s.slot m needed).offset = s.offset ∧ (s.slot m needed).prevoff = s.prevoff ∧
      (s.slot m needed).enduseful = s.enduseful := by
  unfold Scan.slot
  dsimp only
  split_ifs <;> exact ⟨rfl, rfl, rfl, rfl, rfl⟩

/-- The free space of a record. -/
theorem record_free :
    (if e2dIno m o ≠ 0 then (e2dReclen m o : ℤ) - dirRecLen (e2dNamlen m o) else e2dReclen m o) =
      e2dReclen m o - used (liveAt m o) := by
  by_cases hino : e2dIno m o = 0
  · simp [liveAt, hino]
  · have hlen : (direntAt m o).name.length = e2dNamlen m o := e2dName_length m o
    simp [liveAt, hino, hlen]

/-- A run of free space goes on over a record. -/
theorem FreeRun.record (h : FreeRun fs m k o pre s) (hr : Record m o) {s' : Scan}
    (hsame : s'.slotoffset = s.slotoffset ∧ s'.slotfree = s.slotfree)
    (hfull : used (liveAt m o) = e2dReclen m o) :
    FreeRun fs m k (o + e2dReclen m o) (pre ++ liveAt m o) s' := by
  obtain ⟨hoff, hfree⟩ := hsame
  rcases h with ⟨h1, h2⟩ | ⟨p, pre', run, hp, hlt, hpre, hrun, heq, hsum⟩
  · exact .inl ⟨hoff.trans h1, hfree.trans h2⟩
  · refine .inr ⟨p, pre', run ++ liveAt m o, hoff.trans hp, by omega, hpre, hrun.snoc hr, ?_, ?_⟩
    · rw [heq, List.append_assoc]
    · rw [hfree, used_append, hfull]
      push_cast
      omega

/-- The run of free space with a record that is counted in. -/
theorem FreeRun.counted (h : FreeRun fs m k o pre s) (hr : Record m o) (hbefore : Chain m (k * fs.bsize) o pre) :
    ∃ (p : ℕ) (pre' run : List Dirent),
      (if s.slotoffset = -1 then (o : ℤ) else s.slotoffset) = p ∧ p < o + e2dReclen m o ∧
      Chain m (k * fs.bsize) p pre' ∧ Chain m p (o + e2dReclen m o) run ∧
      pre ++ liveAt m o = pre' ++ run ∧
      s.slotfree + (e2dReclen m o - used (liveAt m o) : ℤ) + used run = (o + e2dReclen m o : ℕ) - p := by
  have hpos := hr.pos
  rcases h with ⟨h1, h2⟩ | ⟨p, pre', run, hp, hlt, hpre, hrun, heq, hsum⟩
  · refine ⟨o, pre, liveAt m o, if_pos h1, by omega, hbefore, .single hr, rfl, ?_⟩
    rw [h2]
    push_cast
    omega
  · have hne : s.slotoffset ≠ -1 := by omega
    refine ⟨p, pre', run ++ liveAt m o, by rw [if_neg hne, hp], by omega, hpre, hrun.snoc hr, ?_, ?_⟩
    · rw [heq, List.append_assoc]
    · rw [used_append]
      push_cast
      omega

/-- **Looking at a record for a slot**: either there is a slot afterwards, or the free space counted so
far includes the record. -/
theorem AtRecord.slot (h : AtRecord fs m s s₁ k pre) (hc : Cursor fs m blocks k s.offset pre post)
    (hlt : s.offset < (k + 1) * fs.bsize)
    (hslot : s.status ≠ .none → 0 < needed → HasSlot fs m blocks needed s) :
    ((s₁.slot m needed).status = .none →
      FreeRun fs m k (s.offset + e2dReclen m s.offset) (pre ++ liveAt m s.offset) (s₁.slot m needed)) ∧
    ((s₁.slot m needed).status ≠ .none → 0 < needed → HasSlot fs m blocks needed (s₁.slot m needed)) := by
  obtain ⟨hr, post', rfl, hle, hnext⟩ := hc.next hlt
  have hep := h.ep hc.before.le
  have hlive := used_liveAt_le hr
  have hpos := hr.pos
  -- a slot that was there is still there
  have hkept : s₁.status ≠ .none → ∀ s' : Scan, s'.slotoffset = s₁.slotoffset →
      s'.slotsize = s₁.slotsize → 0 < needed → HasSlot fs m blocks needed s' := by
    intro hs s' hoff hsize hneeded
    rw [h.status] at hs
    obtain ⟨k', p, q, pre', run, post'', hsl, hp, hq⟩ := hslot hs hneeded
    obtain ⟨h1, h2⟩ := h.found hs
    exact ⟨k', p, q, pre', run, post'', hsl, hoff.trans (h1.trans hp), hsize.trans (h2.trans hq)⟩
  unfold Scan.slot
  rw [hep]
  by_cases hfound : s₁.status = .found
  · rw [if_pos hfound]
    refine ⟨fun hs => absurd (hfound.symm.trans hs) (by decide), fun hs => hkept hs s₁ rfl rfl⟩
  rw [if_neg hfound]
  simp only [record_free]
  by_cases hsize : (0 : ℤ) < e2dReclen m s.offset - used (liveAt m s.offset)
  swap
  · rw [if_neg hsize]
    refine ⟨fun hs => ?_, fun hs => hkept hs s₁ rfl rfl⟩
    exact (h.free (h.status ▸ hs)).record hr ⟨rfl, rfl⟩ (by omega)
  rw [if_pos hsize]
  by_cases hfits : (needed : ℤ) ≤ e2dReclen m s.offset - used (liveAt m s.offset)
  · -- the record has room itself
    rw [if_pos hfits]
    refine ⟨fun hs => (by cases hs), fun _ _ => ?_⟩
    refine ⟨k, s.offset, s.offset + e2dReclen m s.offset, pre, liveAt m s.offset, post', ?_, ?_, ?_⟩
    · exact ⟨hnext.block, hc.before, .single hr, hnext.behind, by omega, by omega⟩
    · exact congrArg Nat.cast h.offset
    · show (e2dReclen m s.offset : ℤ) = _
      push_cast
      omega
  rw [if_neg hfits]
  by_cases hnone : s₁.status = .none
  swap
  · rw [if_neg hnone]
    exact ⟨fun hs => absurd hs hnone, fun hs => hkept hs s₁ rfl rfl⟩
  rw [if_pos hnone, h.offset]
  obtain ⟨p, pre', run, hp, hplt, hpre, hrun, heq, hsum⟩ :=
    (h.free (h.status ▸ hnone)).counted hr hc.before
  rw [hp]
  by_cases hroom : (needed : ℤ) ≤ s₁.slotfree + (e2dReclen m s.offset - used (liveAt m s.offset))
  · -- the records from the slot's first on have room together
    rw [if_pos hroom]
    refine ⟨fun hs => (by cases hs), fun _ _ => ?_⟩
    refine ⟨k, p, s.offset + e2dReclen m s.offset, pre', run, post', ?_, rfl, ?_⟩
    · refine ⟨?_, hpre, hrun, hnext.behind, hplt, by omega⟩
      rw [hnext.block, heq]
    · show (s.offset : ℤ) + e2dReclen m s.offset - p = _
      push_cast
      rfl
  · rw [if_neg hroom]
    refine ⟨fun _ => .inr ⟨p, pre', run, rfl, hplt, hpre, hrun, heq, ?_⟩, fun hs => absurd hnone hs⟩
    exact hsum

/-! ### The search -/

/-- The entry of a record with another name. -/
theorem liveAt_unseen (hne : ¬(e2dIno m o ≠ 0 ∧ e2dName m o = name)) : ∀ e ∈ liveAt m o, e.name ≠ name := by
  intro e he
  unfold liveAt at he
  split at he
  · exact absurd he List.not_mem_nil
  · rename_i hino
    rw [List.mem_singleton] at he
    rw [he]
    exact fun heq => hne ⟨hino, heq⟩

/-- The variables of the search behind the record at `s.offset`. -/
structure ScanPassed (fs : MExt2fs) (m : Mem) (s s' : Scan) (k : ℕ) : Prop where
  base : s'.base = k * fs.bsize
  entry : s'.entry = s.offset + e2dReclen m s.offset - k * fs.bsize
  offset : s'.offset = s.offset + e2dReclen m s.offset
  prevoff : s'.prevoff = s.offset
  enduseful : s'.enduseful =
    if e2dIno m s.offset ≠ 0 then s.offset + e2dReclen m s.offset else s.enduseful

theorem AtRecord.passed (h : AtRecord fs m s s₁ k pre) (hle : k * fs.bsize ≤ s.offset) (needed : ℤ) :
    ScanPassed fs m s ((s₁.slot m needed).next m) k := by
  obtain ⟨hbase, hentry, hoffset, -, huseful⟩ := slot_same s₁ m needed
  have hep := h.ep hle
  generalize s₁.slot m needed = s₂ at *
  replace hep : s₂.ep = s.offset := by
    show s₂.base + s₂.entry = _
    rw [hbase, hentry]
    exact hep
  refine ⟨hbase.trans h.base, ?_, ?_, hoffset.trans h.offset, ?_⟩
  · show s₂.entry + e2dReclen m s₂.ep = _
    rw [hep, hentry, h.entry]
    omega
  · show s₂.offset + e2dReclen m s₂.ep = _
    rw [hep, hoffset, h.offset]
  · show (if e2dIno m s₂.ep ≠ 0 then s₂.offset + e2dReclen m s₂.ep else s₂.enduseful) = _
    rw [hep, hoffset, h.offset, huseful, h.enduseful]

section

variable {s' : Scan}

/-- What lies behind the last entry does not pass the search. -/
theorem ScanPassed.useful_le (h : ScanPassed fs m s s' k) (hle : s.enduseful ≤ s.offset) :
    s'.enduseful ≤ s'.offset := by
  rw [h.enduseful, h.offset]
  split <;> omega

/-- The record and those before it hold no entry where the last entry lies before the block. -/
theorem ScanPassed.dead (h : ScanPassed fs m s s' k) (hr : Record m s.offset) (hge : k * fs.bsize ≤ s.offset)
    (hu : s'.enduseful ≤ k * fs.bsize) : liveAt m s.offset = [] ∧ s.enduseful ≤ k * fs.bsize := by
  have hpos := hr.pos
  rw [h.enduseful] at hu
  split at hu
  · omega
  · rename_i hino
    exact ⟨if_pos (not_not.mp hino), hu⟩

theorem ScanPassed.earlier (h : ScanPassed fs m s s' k) (hinv : ScanInv fs m blocks name needed s k pre)
    (hr : Record m s.offset) (hge : k * fs.bsize ≤ s.offset) :
    ∀ j < k, s'.enduseful ≤ j * fs.bsize → blocks.getD j [] = [] := by
  intro j hj hu
  have hpos := hr.pos
  have hjk : j * fs.bsize ≤ k * fs.bsize := Nat.mul_le_mul_right _ (Nat.le_of_lt hj)
  rw [h.enduseful] at hu
  split at hu
  · omega
  · exact hinv.useful j hj hu

/-- The search is behind a record, and its block goes on. -/
theorem ScanInv.inside (h : ScanInv fs m blocks name needed s k pre) (hp : ScanPassed fs m s s' k)
    (hr : Record m s.offset) (hbefore : Chain m (k * fs.bsize) s.offset pre)
    (hnext : Cursor fs m blocks k s'.offset (pre ++ liveAt m s.offset) post)
    (hin : s'.offset < (k + 1) * fs.bsize) (hunseen : ∀ e ∈ liveAt m s.offset, e.name ≠ name)
    (hfree : s'.status = .none → FreeRun fs m k s'.offset (pre ++ liveAt m s.offset) s')
    (hslot : s'.status ≠ .none → 0 < needed → HasSlot fs m blocks needed s') :
    ScanInv fs m blocks name needed s' k (pre ++ liveAt m s.offset) where
  place := .inl ⟨post, hnext, hin⟩
  base _ := ⟨hp.base, by rw [hp.entry, hp.offset]⟩
  prev _ := by
    rw [hp.prevoff, hp.offset]
    exact ⟨pre, hbefore, hr, rfl, rfl⟩
  unseen := h.unseen
  unseen_pre e he := by
    rcases List.mem_append.mp he with he | he
    · exact h.unseen_pre e he
    · exact hunseen e he
  useful_le := hp.useful_le h.useful_le
  useful := hp.earlier h hr hbefore.le
  useful_pre hu := by
    obtain ⟨hlive, hpre⟩ := hp.dead hr hbefore.le hu
    rw [hlive, h.useful_pre hpre]
    rfl
  free hs _ := hfree hs
  slot := hslot

/-- The search is behind the last record of its block. -/
theorem ScanInv.crosses (hwf : d.Wf fs blocks) (h : ScanInv fs d.data blocks name needed s k pre)
    (hp : ScanPassed fs d.data s s' k) (hr : Record d.data s.offset)
    (hbefore : Chain d.data (k * fs.bsize) s.offset pre)
    (hnext : Cursor fs d.data blocks k s'.offset (pre ++ liveAt d.data s.offset) post)
    (hend : s'.offset = (k + 1) * fs.bsize) (hunseen : ∀ e ∈ liveAt d.data s.offset, e.name ≠ name)
    (hslot : s'.status ≠ .none → 0 < needed → HasSlot fs d.data blocks needed s') :
    ScanInv fs d.data blocks name needed s' (k + 1) [] := by
  have hpost : post = [] := by
    have hbehind := hnext.behind
    rw [hend] at hbehind
    exact hbehind.eq_nil
  have hblock : blocks.getD k [] = pre ++ liveAt d.data s.offset := by
    have hblock := hnext.block
    rw [hpost, List.append_nil] at hblock
    rw [List.getD_eq_getElem?_getD, hblock]
    rfl
  have hstart : ¬(k + 1) * fs.bsize < s'.offset := by
    rw [hend]
    exact lt_irrefl _
  exact {
    place := by
      rw [hend]
      rcases Nat.lt_or_eq_of_le (Nat.succ_le_of_lt hnext.lt_length) with hk | hk
      · refine .inl ⟨blocks[k + 1], Cursor.start hwf hk, ?_⟩
        exact Nat.mul_lt_mul_of_pos_right (Nat.lt_succ_self _) fs.bsize_pos
      · exact .inr ⟨hk, rfl, rfl⟩
    base := fun hs => absurd hs hstart
    prev := fun hs => absurd hs hstart
    unseen := fun j hj e he => by
      rcases Nat.lt_succ_iff_lt_or_eq.mp hj with hj | rfl
      · exact h.unseen j hj e he
      · rw [hblock] at he
        rcases List.mem_append.mp he with he | he
        · exact h.unseen_pre e he
        · exact hunseen e he
    unseen_pre := fun e he => absurd he List.not_mem_nil
    useful_le := hp.useful_le h.useful_le
    useful := fun j hj hu => by
      rcases Nat.lt_succ_iff_lt_or_eq.mp hj with hj | rfl
      · exact hp.earlier h hr hbefore.le j hj hu
      · obtain ⟨hlive, hpre⟩ := hp.dead hr hbefore.le hu
        rw [hblock, hlive, h.useful_pre hpre]
        rfl
    useful_pre := fun _ => rfl
    free := fun _ hs => absurd hs hstart
    slot := hslot }

end

/-- **One record further**: the search of a well-formed directory keeps its invariant. -/
theorem ScanInv.next (hwf : d.Wf fs blocks) (h : ScanInv fs d.data blocks name needed s k pre)
    (hc : Cursor fs d.data blocks k s.offset pre post) (hlt : s.offset < (k + 1) * fs.bsize)
    (hat : AtRecord fs d.data s s₁ k pre)
    (hne : ¬(e2dIno d.data s.offset ≠ 0 ∧ e2dName d.data s.offset = name)) :
    ∃ k' pre', ScanInv fs d.data blocks name needed ((s₁.slot d.data needed).next d.data) k' pre' := by
  obtain ⟨hr, post', rfl, hle, hnext⟩ := hc.next hlt
  obtain ⟨hfree, hslot⟩ := hat.slot hc hlt h.slot
  have hp := hat.passed hc.before.le needed
  have hunseen := liveAt_unseen hne
  rw [← hp.offset] at hle hnext hfree
  rcases Nat.lt_or_eq_of_le hle with hin | hend
  · exact ⟨k, _, h.inside hp hr hc.before hnext hin hunseen hfree hslot⟩
  · exact ⟨k + 1, [], h.crosses hwf hp hr hc.before hnext hend hunseen hslot⟩

/-- **The search.**  It ends at the name, or at the end of the directory after it has seen all entries,
or where a block cannot be read. -/
theorem scan_spec (hwf : d.Wf fs blocks) (read : ℕ → Bool) (fuel : ℕ)
    (hfuel : blocks.length * fs.bsize ≤ fuel + s.offset)
    (h : ScanInv fs d.data blocks name needed s k pre) :
    ((∃ j, read j = false) ∧
      scan fs.bsize read d.data name needed (blocks.length * fs.bsize : ℕ) fuel s = .failed .eio) ∨
    (∃ s', scan fs.bsize read d.data name needed (blocks.length * fs.bsize : ℕ) fuel s = .found s' ∧
      ∃ k' pre' post', FoundAt fs d.data blocks name s' k' pre' post') ∨
    ∃ s', scan fs.bsize read d.data name needed (blocks.length * fs.bsize : ℕ) fuel s = .notfound s' ∧
      ScanInv fs d.data blocks name needed s' blocks.length [] := by
  induction fuel generalizing s k pre with
  | zero =>
    right; right
    rcases h.place with ⟨post, hc, hlt⟩ | ⟨rfl, -, rfl⟩
    · have := hc.lt_size hlt
      omega
    · exact ⟨s, rfl, h⟩
  | succ fuel ih =>
    rcases h.place with ⟨post, hc, hlt⟩ | ⟨rfl, hoff, rfl⟩
    swap
    · right; right
      refine ⟨s, ?_, h⟩
      rw [scan, if_neg (by omega)]
    have hlt_size := hc.lt_size hlt
    by_cases hread : s.offset % fs.bsize = 0 ∧ read (s.offset / fs.bsize) = false
    · left
      refine ⟨⟨_, hread.2⟩, ?_⟩
      rw [scan, if_pos (by omega), if_pos hread]
    have hat := h.atRecord hc hlt
    have hep := hat.ep hc.before.le
    obtain ⟨hr, post', hpost, -, -⟩ := hc.next hlt
    have hpos := hr.pos
    obtain ⟨hbase₂, hentry₂, hoffset₂, hprev₂, -⟩ :=
      slot_same ((s.atBlock fs.bsize).restart fs.bsize) d.data needed
    generalize hs₂ : ((s.atBlock fs.bsize).restart fs.bsize).slot d.data needed = s₂ at *
    have hep₂ : s₂.ep = s.offset := by
      show s₂.base + s₂.entry = _
      rw [hbase₂, hentry₂]
      exact hep
    have hround : scan fs.bsize read d.data name needed (blocks.length * fs.bsize : ℕ) (fuel + 1) s =
        if e2dIno d.data s.offset ≠ 0 ∧ e2dName d.data s.offset = name then .found s₂
        else scan fs.bsize read d.data name needed (blocks.length * fs.bsize : ℕ) fuel
          (s₂.next d.data) := by
      rw [scan, if_pos (by omega), if_neg hread]
      simp only [hep, hs₂, hep₂]
      exact if_neg (by omega)
    rw [hround]
    by_cases hfound : e2dIno d.data s.offset ≠ 0 ∧ e2dName d.data s.offset = name
    · right; left
      have hoff : s₂.offset = s.offset := hoffset₂.trans hat.offset
      have hprev : s₂.prevoff = s.prevoff := hprev₂.trans hat.prevoff
      have hlive : liveAt d.data s.offset = [direntAt d.data s.offset] := if_neg hfound.1
      refine ⟨s₂, if_pos hfound, k, pre, post', ?_⟩
      exact {
        cursor := by rw [hoff, ← List.singleton_append, ← hlive, ← hpost]; exact hc
        lt := by rw [hoff]; exact hlt
        ep := hep₂.trans hoff.symm
        ino := by rw [hoff]; exact hfound.1
        name := by rw [hoff]; exact hfound.2
        prev := by rw [hoff, hprev]; exact h.prev }
    · obtain ⟨k', pre', hnext⟩ := h.next hwf hc hlt hat hfound
      rw [hs₂] at hnext
      rw [if_neg hfound]
      apply ih _ hnext
      show _ ≤ fuel + (s₂.offset + e2dReclen d.data s₂.ep)
      rw [hep₂, hoffset₂, hat.offset]
      omega

/-! ### The lookups -/

theorem Directory.Wf.congr (h : d.Wf fs blocks) {d' : Directory} (hdata : d'.data = d.data)
    (hsize : d'.size = d.size) : d'.Wf fs blocks where
  size := hsize.trans h.size
  chain := hdata ▸ h.chain
  names := h.names

theorem roundup2_mul (n : ℕ) {B : ℕ} (hB : 0 < B) : roundup2 (n * B : ℕ) B = (n * B : ℕ) := by
  have hdiv : ((n * B : ℕ) + ((B : ℤ) - 1)) / B = n := by
    rw [Int.ediv_eq_iff_of_pos (by exact_mod_cast hB)]
    push_cast
    constructor <;> nlinarith
  show ((n * B : ℕ) + ((B : ℤ) - 1)) / B * B = _
  rw [hdiv]
  push_cast
  rfl

/-- The end of the search. -/
theorem Directory.Wf.endsearch (h : d.Wf fs blocks) (hsmall : d.size < 2 ^ 31) :
    i32 (roundup2 d.size fs.bsize) = (blocks.length * fs.bsize : ℕ) := by
  rw [h.size, roundup2_mul _ fs.bsize_pos]
  exact i32_of_lt (le_trans (by decide) (Int.natCast_nonneg _)) (by rw [← h.size]; exact_mod_cast hsmall)

/-- The search starts with nothing seen. -/
theorem startScan_inv (name : List UInt8) (h : d.Wf fs blocks) {op : NameiOp}
    (hop : 0 < needed → op.wantsSlot = true) :
    ScanInv fs d.data blocks name needed (startScan fs.bsize op 0) 0 [] where
  place := by
    rcases Nat.eq_zero_or_pos blocks.length with hlen | hlen
    · exact .inr ⟨hlen.symm, (Nat.zero_mul _).symm, rfl⟩
    · refine .inl ⟨blocks[0], ?_, ?_⟩
      · have := Cursor.start h hlen
        rwa [Nat.zero_mul] at this
      · show 0 < (0 + 1) * fs.bsize
        rw [Nat.zero_add, Nat.one_mul]
        exact fs.bsize_pos
  base hlt := absurd hlt (Nat.not_lt_zero _)
  prev hlt := absurd hlt (Nat.not_lt_zero _)
  unseen j hj := absurd hj (Nat.not_lt_zero _)
  unseen_pre e he := absurd he List.not_mem_nil
  useful_le := le_rfl
  useful j hj := absurd hj (Nat.not_lt_zero _)
  useful_pre _ := rfl
  free _ hlt := absurd hlt (Nat.not_lt_zero _)
  slot hs hneeded := absurd (if_pos (hop hneeded)) hs

/-- The slot that a lookup leaves behind for a new name: a new block at the end, or records of one
block with room for it.  The blocks from `i_endoff` on are empty. -/
def EnterReady (fs : MExt2fs) (d : Directory) (blocks : List (List Dirent)) (name : List UInt8) : Prop :=
  (d.count = 0 ∧ d.offset = d.size ∧ d.endoff = d.size) ∨
    ∃ (k p q e : ℕ) (pre run post : List Dirent),
      Slot fs d.data blocks (dirRecLen name.length) k p q pre run post ∧
      d.offset = p ∧ d.count = q - p ∧ d.endoff = (e * fs.bsize : ℕ) ∧ k < e ∧ e ≤ blocks.length ∧
      EmptyFrom fs blocks (e * fs.bsize)

/-- The record of a name that a lookup leaves behind, with the one before it in its block. -/
def RemoveReady (fs : MExt2fs) (d : Directory) (blocks : List (List Dirent)) (name : List UInt8) : Prop :=
  ∃ (k o : ℕ) (pre post : List Dirent),
    Cursor fs d.data blocks k o pre (direntAt d.data o :: post) ∧ o < (k + 1) * fs.bsize ∧
    e2dIno d.data o ≠ 0 ∧ e2dName d.data o = name ∧ d.offset = o ∧
    ((o = k * fs.bsize ∧ d.count = 0) ∨
      ∃ (prev : ℕ) (pre' : List Dirent), Chain d.data (k * fs.bsize) prev pre' ∧
        Record d.data prev ∧ prev + e2dReclen d.data prev = o ∧ pre = pre' ++ liveAt d.data prev ∧
        d.count = (o : ℤ) - prev)

/-- The end of the block that an offset lies in, or is the end of. -/
theorem roundup2_le {x n B : ℕ} (hB : 0 < B) (hx : x ≤ n * B) :
    ∃ e : ℕ, roundup2 x B = (e * B : ℕ) ∧ x ≤ e * B ∧ e ≤ n := by
  refine ⟨(x + (B - 1)) / B, ?_, ?_, ?_⟩
  · show ((x : ℤ) + ((B : ℤ) - 1)) / B * B = _
    push_cast [hB]
    rfl
  · have := Nat.lt_div_mul_add hB (a := x + (B - 1))
    omega
  · rw [Nat.div_le_iff_le_mul_add_pred hB]
    have := Nat.mul_comm n B
    omega

/-- **A lookup that starts at the beginning** ends at the name, or has seen all entries, or fails. -/
theorem lookup_cases (name : List UInt8) (hwf : d.Wf fs blocks) (hsmall : d.size < 2 ^ 31)
    (env : LookupEnv) {op : NameiOp} (hop : op ≠ .lookup) :
    ((∃ j, env.read j = false) ∧ ext2Lookup fs env op name d = (.failed .eio, d)) ∨
    (∃ (s : Scan) (k : ℕ) (pre post : List Dirent), FoundAt fs d.data blocks name s k pre post ∧
      ext2Lookup fs env op name d = lookupFound fs.bsize env op s d) ∨
    ∃ s : Scan, ext2Lookup fs env op name d = lookupNotFound fs.bsize op s d ∧
      ScanInv fs d.data blocks name (if op.wantsSlot then dirRecLen name.length else 0) s
        blocks.length [] := by
  have hneeded : slotNeeded op name = (if op.wantsSlot then dirRecLen name.length else 0 : ℕ) := by
    unfold slotNeeded
    split <;> rfl
  have hresume : ¬d.resumes op := fun h => hop h.1
  have hend := hwf.endsearch hsmall
  have hstart : 0 < (if op.wantsSlot then dirRecLen name.length else 0) → op.wantsSlot = true := by
    intro h
    by_contra hno
    rw [if_neg hno] at h
    exact absurd h (lt_irrefl 0)
  have hfuel : blocks.length * fs.bsize ≤
      ((blocks.length * fs.bsize : ℕ) - ((startScan fs.bsize op 0).offset : ℤ)).toNat +
        (startScan fs.bsize op 0).offset := by
    show _ ≤ ((blocks.length * fs.bsize : ℕ) - ((0 : ℕ) : ℤ)).toNat + 0
    omega
  rcases scan_spec hwf env.read _ hfuel (startScan_inv name hwf hstart) with
    ⟨hread, hs⟩ | ⟨s, hs, k, pre, post, hf⟩ | ⟨s, hs, hinv⟩
  · left
    refine ⟨hread, ?_⟩
    rw [ext2Lookup, if_neg hresume]
    simp only [hneeded, hend]
    rw [hs]
  · right; left
    refine ⟨s, k, pre, post, hf, ?_⟩
    rw [ext2Lookup, if_neg hresume]
    simp only [hneeded, hend]
    rw [hs]
  · right; right
    refine ⟨s, ?_, hinv⟩
    rw [ext2Lookup, if_neg hresume]
    simp only [hneeded, hend]
    rw [hs]

/-- What was found is an entry of the directory. -/
theorem FoundAt.mem {k : ℕ} {pre post : List Dirent} (h : FoundAt fs m blocks name s k pre post) :
    direntAt m s.offset ∈ blocks.flatten :=
  List.mem_flatten.mpr ⟨_, List.mem_of_getElem? h.cursor.block,
    List.mem_append_right _ List.mem_cons_self⟩

/-- **A lookup for a new name** leaves a slot for it. -/
theorem lookup_create (hwf : d.Wf fs blocks) (hsmall : d.size < 2 ^ 31) (hlive : d.nlink ≠ 0)
    {env : LookupEnv} (hread : ∀ j, env.read j = true) {op : NameiOp} (hop : op.wantsSlot = true)
    (hname : ∀ e ∈ blocks.flatten, e.name ≠ name) :
    ∃ offset count endoff : ℤ,
      ext2Lookup fs env op name d =
        (.justReturn, { d with offset := offset, count := count, endoff := endoff }) ∧
      EnterReady fs { d with offset := offset, count := count, endoff := endoff } blocks name := by
  have hB := fs.bsize_pos
  have hne : op ≠ .lookup := fun h => by rw [h] at hop; cases hop
  have hsize := hwf.size
  have hwrap : ∀ x : ℕ, x ≤ blocks.length * fs.bsize → i32 x = x := by
    intro x hx
    exact i32_of_lt (le_trans (by decide) (Int.natCast_nonneg _)) (by omega)
  rcases lookup_cases name hwf hsmall env hne with
    ⟨⟨j, hj⟩, -⟩ | ⟨s, k, pre, post, hf, -⟩ | ⟨s, hlookup, hinv⟩
  · rw [hread j] at hj
    cases hj
  · exact absurd hf.name (hname _ hf.mem)
  rw [if_pos hop] at hinv
  rw [hlookup, lookupNotFound, if_pos ⟨hop, hlive⟩]
  by_cases hnone : s.status = .none
  · refine ⟨_, _, _, if_pos hnone, .inl ⟨rfl, ?_, ?_⟩⟩
    · show i32 (roundup2 d.size fs.bsize) = d.size
      rw [hwf.endsearch hsmall, hsize]
    · show i32 (roundup2 (i32 (roundup2 d.size fs.bsize)) fs.bsize) = d.size
      rw [hwf.endsearch hsmall, roundup2_mul _ hB, hwrap _ le_rfl, hsize]
  · have hpos : 0 < dirRecLen name.length := lt_of_lt_of_le (by omega) (dirRecLen_ge _)
    obtain ⟨k, p, q, pre, run, post, hslot, hp, hq⟩ := hinv.slot hnone hpos
    have hpq := hslot.lt
    have hqk := hslot.behind.le
    have hk : k < blocks.length := by
      by_contra hge
      have := hslot.block
      rw [List.getElem?_eq_none (Nat.le_of_not_lt hge)] at this
      cases this
    have hqend : q ≤ blocks.length * fs.bsize := le_trans hqk (Nat.mul_le_mul_right _ hk)
    obtain ⟨u, hu, hus, huq, hul⟩ : ∃ u : ℕ, (if (s.enduseful : ℤ) < s.slotoffset + s.slotsize then
        s.slotoffset + s.slotsize else (s.enduseful : ℤ)) = u ∧ s.enduseful ≤ u ∧ q ≤ u ∧
        u ≤ blocks.length * fs.bsize := by
      have huseful : s.enduseful ≤ blocks.length * fs.bsize := by
        rcases hinv.place with ⟨post', hc, -⟩ | ⟨-, hoff, -⟩
        · exact absurd hc.lt_length (lt_irrefl _)
        · exact hoff ▸ hinv.useful_le
      rw [hp, hq]
      by_cases hlt : (s.enduseful : ℤ) < p + (q - p)
      · exact ⟨q, by rw [if_pos hlt]; omega, by omega, le_rfl, hqend⟩
      · exact ⟨s.enduseful, if_neg hlt, le_rfl, by omega, huseful⟩
    obtain ⟨e, he, hue, hel⟩ := roundup2_le hB hul
    refine ⟨_, _, _, if_neg hnone, .inr ⟨k, p, q, e, pre, run, post, hslot, hp, hq, ?_, ?_, hel, ?_⟩⟩
    · show i32 (roundup2 (if _ then _ else _) fs.bsize) = _
      rw [hu, he]
      exact hwrap _ (Nat.mul_le_mul_right _ hel)
    · by_contra hle
      have h1 : e * fs.bsize ≤ k * fs.bsize := Nat.mul_le_mul_right _ (Nat.le_of_not_lt hle)
      have h2 := hslot.before.le
      omega
    · intro j hj hge
      have := hinv.useful j hj (by omega)
      rwa [List.getD_eq_getElem?_getD, List.getElem?_eq_getElem hj] at this

/-- **A lookup for an entry that is to go** leaves its record. -/
theorem lookup_delete (hwf : d.Wf fs blocks) (hsmall : d.size < 2 ^ 31) {env : LookupEnv}
    (hread : ∀ j, env.read j = true) (hvget : ∀ ino, env.vget ino = none) (hsticky : env.sticky = false)
    {e : Dirent} (he : e ∈ blocks.flatten) :
    ∃ offset count : ℤ,
      ext2Lookup fs env .delete e.name d =
        (.found e.ino, { d with offset := offset, count := count }) ∧
      RemoveReady fs { d with offset := offset, count := count } blocks e.name := by
  rcases lookup_cases e.name hwf hsmall env (show NameiOp.delete ≠ .lookup by decide) with
    ⟨⟨j, hj⟩, -⟩ | ⟨s, k, pre, post, hf, hlookup⟩ | ⟨s, -, hinv⟩
  · rw [hread j] at hj
    cases hj
  swap
  · obtain ⟨block, hblock, hmem⟩ := List.mem_flatten.mp he
    obtain ⟨j, hj, rfl⟩ := List.getElem_of_mem hblock
    refine absurd rfl (hinv.unseen j hj e ?_)
    rwa [List.getD_eq_getElem?_getD, List.getElem?_eq_getElem hj]
  have heq : direntAt d.data s.offset = e :=
    List.inj_on_of_nodup_map hwf.names hf.mem he hf.name
  have hino : e2dIno d.data s.ep = e.ino := by
    rw [hf.ep]
    exact congrArg Dirent.ino heq
  have hget : ∀ d' : Directory, lookupVget env d' e.ino = .found e.ino := by
    intro d'
    unfold lookupVget
    rw [hvget, ite_self]
  refine ⟨s.offset, if s.offset % fs.bsize = 0 then 0 else (s.offset : ℤ) - s.prevoff, ?_, ?_⟩
  · rw [hlookup]
    simp only [lookupFound, hino, hsticky, hget, Bool.false_eq_true, and_false, if_false]
  · have hle := hf.cursor.before.le
    have hzero := mod_eq_zero_iff hle hf.lt
    refine ⟨k, s.offset, pre, post, hf.cursor, hf.lt, hf.ino, hf.name, rfl, ?_⟩
    rcases Nat.eq_or_lt_of_le hle with hstart | hgt
    · exact .inl ⟨hstart.symm, if_pos (hzero.mpr hstart.symm)⟩
    · obtain ⟨pre', hchain, hr, hprev, hpre⟩ := hf.prev hgt
      exact .inr ⟨s.prevoff, pre', hchain, hr, hprev, hpre,
        if_neg (fun h0 => absurd (hzero.mp h0) (Nat.ne_of_gt hgt))⟩

end

end Ext2fs
