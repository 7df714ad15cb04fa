import Ext2fs.AllocRuns
import Ext2fs.World

/-!
# The allocator under the files

The functions over a file see the allocator through `World`: any free block may be handed out, and a block
that is given back is free again.  Underneath are the groups, with their bitmaps and counters.

* `BlockCall.seen`, `BlockCall.served` — a call of `ext2_alloc` or `ext2_blkfree` above and below;
* `Serves` — the free blocks above are the clear bits below;
* `BlockCall.simulates` — one call keeps them so;
* `block_runs` — **in every run of calls the groups do what the files see**, up to the panic.
-/

namespace Ext2fs.GroupMap.Allocator

open NumberPool

/-- A call from the functions over a file: `ext2_alloc`, with the block of the file it is for, or
`ext2_blkfree`. -/
inductive BlockCall where
  | alloc (lbn : ℕ) (suser : Bool) (bpref : ℤ) (ino : ℕ)
  | blkfree (bno : ℕ) (read : Bool)

/-- What the callers keep to. -/
def BlockCall.Ok (fs : MExt2fs) : BlockCall → Prop
  | alloc _ _ bpref ino => 0 ≤ bpref ∧ 0 < ino ∧ ino ≤ fs.gcount * fs.ipg
  | blkfree bno _ => 0 < bno ∧ bno < 2 ^ 32

/-- The call as the file sees it, with the block that was chosen. -/
def BlockCall.seen (fs : MExt2fs) (choice : Option ℕ) (w : World) : BlockCall → World
  | alloc lbn _ _ _ =>
      match w.takeBlock fs lbn choice with
      | none => w.lostBit fs choice
      | some (_, w) => w
  | blkfree bno read => w.blkfree fs (fun _ => read) bno

/-- The call as the groups serve it, one call at a time; a panic has no result. -/
def BlockCall.served (fs : MExt2fs) (contigsumsize : ℕ) (s : AllocSys) :
    BlockCall → Option (AllocSys × List (Event Number))
  | alloc _ suser bpref ino => run (step fs contigsumsize) (allocOps fs suser bpref ino s) s
  | blkfree bno read => run (step fs contigsumsize) [.blkfree bno read] s

/-- The choice that the groups made. -/
def choiceOf : List (Event Number) → Option ℕ
  | [.take (.block b)] => some b
  | _ => none

/-- The calls above, with their choices; the machine stops at a panic. -/
def seenRun (fs : MExt2fs) : List (BlockCall × Option ℕ) → World → World
  | [], w => w
  | (c, choice) :: cs, w => if w.panicked then w else seenRun fs cs (c.seen fs choice w)

/-- The calls below, with the choices they make, up to the call that panics. -/
def servedRun (fs : MExt2fs) (contigsumsize : ℕ) :
    List BlockCall → AllocSys → List (BlockCall × Option ℕ) × Option AllocSys
  | [], s => ([], some s)
  | c :: cs, s =>
      match c.served fs contigsumsize s with
      | none => ([(c, none)], none)
      | some (s, h) =>
          let r := servedRun fs contigsumsize cs s
          ((c, choiceOf h) :: r.1, r.2)

/-- The kernel runs, no search is under way, the counters agree with the bitmaps, and the free blocks
above are the clear bits. -/
structure Serves (fs : MExt2fs) (w : World) (s : AllocSys) : Prop where
  consistent : Consistent fs s
  idle : s.flights = []
  running : w.panicked = false
  avail : ∀ b, w.avail b = true ↔ Number.block b ∈ free fs s.gd

variable {fs : MExt2fs} {w : World} {s : AllocSys} {contigsumsize : ℕ} {c : BlockCall}

/-- A free block is one that a file may be given. -/
theorem Consistent.free_block (hg : Geometry fs) (h : Consistent fs s) {b : ℕ}
    (hb : Number.block b ∈ free fs s.gd) : 0 < b ∧ b < fs.bcount ∧ b < 2 ^ 31 := by
  obtain ⟨cg, hcg, i, hi, hclr, rfl⟩ := hb
  have hinside := (h.counters.group cg hcg).inside i hi hclr
  have hbcount := hg.bcount_le
  exact ⟨hinside.1, hinside.2, by omega⟩

/-- A block that is free below can be taken above. -/
theorem Serves.takeBlock (h : Serves fs w s) (hg : Geometry fs) {b : ℕ}
    (hb : Number.block b ∈ free fs s.gd) (lbn : ℕ) :
    ∃ w', w.takeBlock fs lbn (some b) = some (b, w') := by
  obtain ⟨hpos, hlt, hlt31⟩ := h.consistent.free_block hg hb
  exact ⟨_, if_pos ⟨(h.avail b).2 hb, hpos, hlt, hlt31⟩⟩

theorem allocOps_ok {suser : Bool} {bpref : ℤ} {ino : ℕ} (hpref : 0 ≤ bpref) (hpos : 0 < ino)
    (hle : ino ≤ fs.gcount * fs.ipg) : ∀ op ∈ allocOps fs suser bpref ino s, op.Ok fs := by
  intro op hop
  rcases List.mem_cons.1 hop with rfl | hop
  · exact ⟨hpref, hpos, hle⟩
  · rcases List.mem_append.1 hop with hop | hop
    · obtain ⟨cg, -, rfl⟩ := List.mem_map.1 hop
      trivial
    · rw [List.mem_singleton.1 hop]
      trivial

/-- **A block is asked for.**  What the groups hand out is free above, and is taken there. -/
theorem alloc_simulates (hg : Geometry fs) (h : Serves fs w s) (lbn : ℕ) (suser : Bool) {bpref : ℤ}
    {ino : ℕ} (hpref : 0 ≤ bpref) (hpos : 0 < ino) (hle : ino ≤ fs.gcount * fs.ipg) :
    ∃ t hist, (BlockCall.alloc lbn suser bpref ino).served fs contigsumsize s = some (t, hist) ∧
      Serves fs ((BlockCall.alloc lbn suser bpref ino).seen fs (choiceOf hist) w) t ∧
        (choiceOf hist = none ↔ Refused fs s.sb.fbcount suser fs.bsize) := by
  obtain ⟨t, hist, hrun, hidle, hhands⟩ : ∃ t hist,
      run (step fs contigsumsize) (allocOps fs suser bpref ino s) s = some (t, hist) ∧ _ :=
    alloc_alone hg h.consistent h.idle suser hpref hpos hle
  obtain ⟨hcons, hlegal, hfree, -, hquiet⟩ := run_invariants hg h.consistent
    (allocOps_ok hpref hpos hle) hrun
  refine ⟨t, hist, hrun, ?_⟩
  rcases hhands with ⟨hrefused, rfl⟩ | ⟨hgranted, before, cg, behind, n, -, -, ⟨i, hi, rfl⟩, rfl⟩
  · refine ⟨⟨hcons, hidle, h.running, fun b => ?_⟩, iff_of_true rfl hrefused⟩
    rw [(hquiet rfl).1]
    exact h.avail b
  · have hmem : Number.block (blockAt fs cg i) ∈ free fs s.gd := hlegal.1
    obtain ⟨w', htake⟩ := h.takeBlock hg hmem lbn
    have htook := World.takeBlock_spec htake
    have hseen : (BlockCall.alloc lbn suser bpref ino).seen fs
        (choiceOf [.take (.block (blockAt fs cg i))]) w = w' := by
      simp only [BlockCall.seen, choiceOf, htake]
    rw [hseen]
    refine ⟨⟨hcons, hidle, htook.panicked.trans h.running, fun b => ?_⟩,
      iff_of_false (Option.some_ne_none _) hgranted⟩
    have hset : free fs t.gd = free fs s.gd \ {.block (blockAt fs cg i)} := hfree
    rw [hset, Set.mem_sdiff, Set.mem_singleton_iff, Number.block.injEq, ← h.avail b, htook.avail]
    by_cases hb : b = blockAt fs cg i
    · simp [hb]
    · simp [hb]

/-- What `ext2_blkfree` comes to above, by what the block is below. -/
theorem seen_blkfree_cases (fs : MExt2fs) (w : World) {bno : ℕ} (read : Bool) (hlt : bno < 2 ^ 32) :
    ((fs.bcount ≤ bno ∨ read = false) ∧ (w.blkfree fs (fun _ => read) bno).avail = w.avail ∧
        (w.blkfree fs (fun _ => read) bno).panicked = w.panicked) ∨
      (¬(fs.bcount ≤ bno ∨ read = false) ∧ w.avail bno = true ∧
        (w.blkfree fs (fun _ => read) bno).panicked = true) ∨
      (¬(fs.bcount ≤ bno ∨ read = false) ∧ w.avail bno = false ∧
        (w.blkfree fs (fun _ => read) bno).avail = (fun x => if x = bno then true else w.avail x) ∧
        (w.blkfree fs (fun _ => read) bno).panicked = w.panicked) := by
  have h32 : u32 (bno : ℤ) = bno := u32_of_lt hlt
  have hsign : ¬((bno : ℤ) < 0) := by omega
  unfold World.blkfree
  simp only [h32, hsign, false_or, Int.toNat_natCast]
  split
  · next hout => exact .inl ⟨.inl hout, rfl, rfl⟩
  · next hin =>
    split
    · next hread => exact .inl ⟨.inr hread, rfl, rfl⟩
    · next hread =>
      have hboth : ¬(fs.bcount ≤ bno ∨ read = false) := fun hor => hor.elim hin hread
      split
      · next hav => exact .inr (.inl ⟨hboth, hav, rfl⟩)
      · next hav => exact .inr (.inr ⟨hboth, by simpa using hav, rfl, rfl⟩)

/-- **A block is given back.**  The groups panic when the files would, and else free it, or do nothing. -/
theorem blkfree_simulates (hg : Geometry fs) (h : Serves fs w s) {bno : ℕ} (read : Bool)
    (hpos : 0 < bno) (hlt : bno < 2 ^ 32) :
    ((BlockCall.blkfree bno read).served fs contigsumsize s = none ∧
        (w.blkfree fs (fun _ => read) bno).panicked = true) ∨
      ∃ t hist, (BlockCall.blkfree bno read).served fs contigsumsize s = some (t, hist) ∧
        choiceOf hist = none ∧ Serves fs (w.blkfree fs (fun _ => read) bno) t := by
  have hserved : (BlockCall.blkfree bno read).served fs contigsumsize s =
      (stepBlkfree fs contigsumsize bno read s).map fun r => (r.1, r.2.toList) := by
    simp only [BlockCall.served, run, step]
    cases stepBlkfree fs contigsumsize bno read s <;> simp
  have hidle : ∀ t e, stepBlkfree fs contigsumsize bno read s = some (t, e) → t.flights = s.flights := by
    intro t e hstep
    obtain ⟨t', -, heq⟩ := Option.map_eq_some_iff.1 hstep
    cases heq
    rfl
  have hgive : GiveOk fs s ((AllocOp.blkfree bno read).gives fs)
      (stepBlkfree fs contigsumsize bno read s) := stepBlkfree_ok hg h.consistent hpos hlt
  rw [hserved]
  rcases seen_blkfree_cases fs w read hlt with ⟨hskip, hav, hrun⟩ | ⟨hin, hav, hpanic⟩ | ⟨hin, hav, hav', hrun⟩
  · rw [AllocOp.gives, if_pos hskip] at hgive
    generalize stepBlkfree fs contigsumsize bno read s = r at hgive
    cases hgive
    refine .inr ⟨s, [], rfl, rfl, h.consistent, h.idle, hrun.trans h.running, fun b => ?_⟩
    rw [hav]
    exact h.avail b
  · rw [AllocOp.gives, if_neg hin] at hgive
    have hfree : Number.block bno ∈ free fs s.gd := (h.avail bno).1 hav
    generalize stepBlkfree fs contigsumsize bno read s = r at hgive
    cases hgive with
    | panics _ => exact .inl ⟨rfl, hpanic⟩
    | given hused _ => exact absurd hfree hused
  · rw [AllocOp.gives, if_neg hin] at hgive
    have hused : Number.block bno ∉ free fs s.gd := fun hfree => by
      rw [(h.avail bno).2 hfree] at hav
      cases hav
    generalize stepBlkfree fs contigsumsize bno read s = r at hgive hidle
    cases hgive with
    | panics hfree => exact absurd hfree hused
    | @given _ t _ hok =>
      have hset : free fs t.gd = insert (.block bno) (free fs s.gd) := hok.moves.2
      refine .inr ⟨t, [.give (.block bno)], rfl, rfl, hok.consistent,
        (hidle t _ rfl).trans h.idle, hrun.trans h.running, fun b => ?_⟩
      rw [hav', hset, Set.mem_insert_iff, Number.block.injEq, ← h.avail b]
      by_cases hb : b = bno
      · simp [hb]
      · simp [hb]

/-- One call: it panics below and above, or is carried out below and above. -/
theorem BlockCall.simulates (hg : Geometry fs) (contigsumsize : ℕ) (h : Serves fs w s) (hok : c.Ok fs) :
    (c.served fs contigsumsize s = none ∧ (c.seen fs none w).panicked = true) ∨
      ∃ t hist, c.served fs contigsumsize s = some (t, hist) ∧
        Serves fs (c.seen fs (choiceOf hist) w) t := by
  cases c with
  | alloc lbn suser bpref ino =>
    obtain ⟨t, hist, hserved, hserves, -⟩ := alloc_simulates hg h lbn suser hok.1 hok.2.1 hok.2.2
    exact .inr ⟨t, hist, hserved, hserves⟩
  | blkfree bno read =>
    rcases blkfree_simulates hg h read hok.1 hok.2 with hpanic | ⟨t, hist, hserved, -, hserves⟩
    · exact .inl hpanic
    · exact .inr ⟨t, hist, hserved, hserves⟩

/-! ### Runs -/

/-- A run below and above, up to its end or to the panic. -/
theorem servedRun_simulates (hg : Geometry fs) (contigsumsize : ℕ) (calls : List BlockCall) {w : World}
    {s : AllocSys} (h : Serves fs w s) (hok : ∀ c ∈ calls, c.Ok fs) :
    ((servedRun fs contigsumsize calls s).2 = none ∧
        (seenRun fs (servedRun fs contigsumsize calls s).1 w).panicked = true) ∨
      ∃ t, (servedRun fs contigsumsize calls s).2 = some t ∧
        (servedRun fs contigsumsize calls s).1.map Prod.fst = calls ∧
          Serves fs (seenRun fs (servedRun fs contigsumsize calls s).1 w) t := by
  induction calls generalizing w s with
  | nil => exact .inr ⟨s, rfl, rfl, h⟩
  | cons c cs ih =>
    obtain ⟨hc, hcs⟩ := List.forall_mem_cons.1 hok
    have hrunning : ¬w.panicked = true := by
      rw [h.running]
      decide
    rcases c.simulates hg contigsumsize h hc with ⟨hnone, hpanic⟩ | ⟨t, hist, hsome, hserves⟩
    · refine .inl ⟨?_, ?_⟩
      · simp only [servedRun, hnone]
      · simpa only [servedRun, hnone, seenRun, if_neg hrunning] using hpanic
    · simp only [servedRun, hsome, seenRun, if_neg hrunning, List.map_cons, List.cons.injEq, true_and]
      exact ih hserves hcs

/-- **The groups under the files.**  For every run of calls, one after the other, the groups make choices
with which the run goes above as it goes below: it panics there if and only if it does here, and otherwise
the free blocks above are the clear bits again, and the counters agree with them.  A call for a block is
left without one only if the superblock refuses it. -/
theorem block_runs (hg : Geometry fs) (contigsumsize : ℕ) (calls : List BlockCall) {w : World}
    {s : AllocSys} (h : Serves fs w s) (hok : ∀ c ∈ calls, c.Ok fs) :
    ((servedRun fs contigsumsize calls s).2 = none ↔
      (seenRun fs (servedRun fs contigsumsize calls s).1 w).panicked = true) ∧
    (∀ t, (servedRun fs contigsumsize calls s).2 = some t →
      (servedRun fs contigsumsize calls s).1.map Prod.fst = calls ∧
        Serves fs (seenRun fs (servedRun fs contigsumsize calls s).1 w) t) ∧
    ∀ before lbn suser bpref ino behind t, calls = before ++ .alloc lbn suser bpref ino :: behind →
      (servedRun fs contigsumsize before s).2 = some t →
        ∃ t' hist, (BlockCall.alloc lbn suser bpref ino).served fs contigsumsize t = some (t', hist) ∧
          (choiceOf hist = none ↔ Refused fs t.sb.fbcount suser fs.bsize) := by
  refine ⟨?_, fun t ht => ?_, fun before lbn suser bpref ino behind t heq ht => ?_⟩
  · rcases servedRun_simulates hg contigsumsize calls h hok with ⟨hnone, hpanic⟩ | ⟨t, hsome, -, hserves⟩
    · exact iff_of_true hnone hpanic
    · refine iff_of_false (fun hnone => ?_) fun hpanic => ?_
      · rw [hsome] at hnone
        cases hnone
      · rw [hserves.running] at hpanic
        cases hpanic
  · rcases servedRun_simulates hg contigsumsize calls h hok with ⟨hnone, -⟩ | ⟨t', hsome, hall, hserves⟩
    · rw [hnone] at ht
      cases ht
    · rw [hsome] at ht
      cases ht
      exact ⟨hall, hserves⟩
  · have hbefore : ∀ c ∈ before, c.Ok fs := fun c hc =>
      hok c (heq ▸ List.mem_append_left _ hc)
    have hcall : (BlockCall.alloc lbn suser bpref ino).Ok fs :=
      hok _ (heq ▸ List.mem_append_right _ (List.mem_cons_self ..))
    rcases servedRun_simulates hg contigsumsize before h hbefore with ⟨hnone, -⟩ | ⟨t', hsome, -, hserves⟩
    · rw [hnone] at ht
      cases ht
    · rw [hsome] at ht
      cases ht
      obtain ⟨t', hist, hserved, -, hrefused⟩ :=
        alloc_simulates hg hserves lbn suser hcall.1 hcall.2.1 hcall.2.2
      exact ⟨t', hist, hserved, hrefused⟩

/-- A file on the volume of one group. -/
def oneGroupWorld : World :=
  World.empty fun b => decide (∃ i < oneGroup.fpg, sampleGroup.bbmap.isclr i = true ∧ b = blockAt oneGroup 0 i)

theorem oneGroup_serves : Serves oneGroup oneGroupWorld oneGroupState where
  consistent := oneGroup_consistent
  idle := rfl
  running := rfl
  avail b := by
    have hgcount : oneGroup.gcount = 1 := by decide
    constructor
    · intro hav
      obtain ⟨i, hi, hclr, hb⟩ := of_decide_eq_true hav
      exact ⟨0, by omega, i, hi, hclr, hb⟩
    · rintro ⟨cg, hcg, i, hi, hclr, hb⟩
      obtain rfl : cg = 0 := by omega
      exact decide_eq_true ⟨i, hi, hclr, hb⟩

/-- A block is taken, given back, and given back once more. -/
theorem block_runs_oneGroup :
    let calls := [.alloc 0 true 13 1, .blkfree 13 true, .blkfree 13 true]
    ((servedRun oneGroup 4 calls oneGroupState).2 = none ↔
      (seenRun oneGroup (servedRun oneGroup 4 calls oneGroupState).1 oneGroupWorld).panicked = true) ∧
    (servedRun oneGroup 4 calls oneGroupState).2.isNone = true :=
  ⟨(block_runs oneGroup_geometry 4 _ oneGroup_serves (by
      intro c hc
      simp only [List.mem_cons, List.not_mem_nil, or_false] at hc
      rcases hc with rfl | rfl | rfl
      · exact ⟨by decide, by decide, by decide⟩
      · exact ⟨by decide, by decide⟩
      · exact ⟨by decide, by decide⟩)).1, by decide +kernel⟩

end Ext2fs.GroupMap.Allocator
