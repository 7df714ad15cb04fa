import Ext2fs.Journal

/-!
# The buffers of the journal replay

`ext2_journal_replay` once more, with every use of `jbp`, of a tag and of a buffer checked where the code
makes it.  A buffer has a number; those that were obtained and are not released yet are held.

* `ReplayFault` — what can go wrong at a use;
* `Replay`, `replayBlocks`, `journalReplayChecked` — the function;
* `JournalSafe` — it comes back, and nothing has gone wrong;
* `Replay.Spoiled` — after one copy the buffer of the copy is released twice;
* **`journal_safe_iff`** — the function is safe exactly where every descriptor it reaches fits;
* `journalReplayChecked_agrees` — where it is safe it does what `ext2JournalReplay` does.
-/

namespace Ext2fs

/-! ### The function -/

/-- What goes wrong at a use. -/
inductive ReplayFault where
  /-- an index outside of `jbp` -/
  | index
  /-- a word of a tag behind its block -/
  | tag
  /-- the data of a null pointer -/
  | nullBuffer
  /-- a buffer that is released or written, and is not held -/
  | notHeld
  /-- the rounds do not suffice -/
  | rounds
  deriving DecidableEq

/-- A buffer: its number, and the block in it. -/
structure LogBuf where
  no : ℕ
  data : LogBlock

/-- The variables of the function, the device and the buffers. -/
structure Replay where
  dev : BitVec 32 → LogBlock
  jbp : ℕ → Option LogBuf
  i : ℕ
  next_sequence : BitVec 32
  jsb_bp : Option ℕ
  held : List ℕ
  /-- how many buffers were obtained; the next one gets this number -/
  obtained : ℕ

namespace Replay

/-- The next buffer is obtained. -/
def obtain (s : Replay) : Replay := { s with held := s.obtained :: s.held, obtained := s.obtained + 1 }

/-- `buf_brelse` -/
def brelse (s : Replay) (no : ℕ) : Except ReplayFault Replay :=
  if no ∈ s.held then .ok { s with held := s.held.erase no } else .error .notHeld

/-- `buf_bwrite`: the block goes to the device, and the buffer is released. -/
def bwrite (s : Replay) (no : ℕ) (blkno : BitVec 32) (data : LogBlock) : Except ReplayFault Replay :=
  if no ∈ s.held then .ok { s with held := s.held.erase no, dev := Function.update s.dev blkno data }
  else .error .notHeld

/-- `jbp[i]` -/
def jbpAt (s : Replay) (nblocks : BitVec 32) (i : ℤ) : Except ReplayFault (Option LogBuf) :=
  if 0 ≤ i ∧ i < nblocks.toNat then .ok (s.jbp i.toNat) else .error .index

/-- `jbp[i]` is assigned. -/
def setJbp (s : Replay) (nblocks : BitVec 32) (b : Option LogBuf) : Except ReplayFault Replay :=
  if s.i < nblocks.toNat then .ok { s with jbp := Function.update s.jbp s.i b } else .error .index

/-- On to the next block but `n`. -/
def next (s : Replay) (n : ℕ) : Replay := { s with i := s.i + n + 1 }

/-- A commit block was counted. -/
def count (s : Replay) : Replay := { s with next_sequence := s.next_sequence + 1 }

end Replay

/-- A word of a block, which the code takes for one of a tag. -/
def tagWord (bsize : ℕ) (blk : LogBlock) (w : ℕ) : Except ReplayFault (BitVec 32) :=
  if 4 * w + 4 ≤ bsize then .ok (blk w) else .error .tag

section Replay

variable (fs : MExt2fs) (readable : BitVec 32 → Bool) (addr : ℕ → ℤ) (start nblocks : BitVec 32)

/-- The index of the next block of the log, as the loop over the tags computes it. -/
def tagIndex (i : ℕ) : ℤ :=
  let i : ℤ := i + 1
  if nblocks ≤ start + BitVec.ofInt 32 i then i - nblocks.toNat else i

/-- One tag: the buffer at the next index is copied home if there is one.  `buf_getblk` returns a buffer
for a block it may create. -/
def replayCopy (tag_blocknr : BitVec 32) (s : Replay) : Except ReplayFault Replay :=
  (s.jbpAt nblocks (tagIndex start nblocks s.i)).bind fun b =>
    let s := { s with i := (tagIndex start nblocks s.i).toNat }
    match b with
    | none => .ok s
    | some b =>
        -- behind a header `bcopy` goes on after the end of the buffer
        let jdata : LogBlock := if b.data.h_magic = JBD_MAGIC then fun k => b.data (k + 3) else b.data
        { s.obtain with jsb_bp := some s.obtained }.bwrite s.obtained tag_blocknr jdata

/-- The tags of the descriptor `desc`.  The condition of the loop compares with the end of the buffer at
the index, wherever that is by now; `addr` is where the data of a buffer starts. -/
def replayTags (desc : LogBuf) : ℕ → ℕ → Replay → Except ReplayFault Replay
  | 0, _, _ => .error .rounds
  | fuel + 1, k, s =>
      (s.jbpAt nblocks s.i).bind fun b =>
        match b with
        | none => .error .nullBuffer
        | some b =>
            if addr desc.no + 12 + 8 * k + 8 ≤ addr b.no + fs.bsize then
              (tagWord fs.bsize desc.data (3 + 2 * k)).bind fun tag_blocknr =>
                if tag_blocknr = 0 then .ok s
                else
                  (replayCopy start nblocks tag_blocknr s).bind fun s =>
                    (tagWord fs.bsize desc.data (4 + 2 * (k + 1))).bind fun flags =>
                      if flags &&& 0x08 ≠ 0 then .ok s else replayTags desc fuel (k + 1) s
            else .ok s

/-- The loop over the log. -/
def replayBlocks : ℕ → Replay → Except ReplayFault Replay
  | 0, _ => .error .rounds
  | fuel + 1, s =>
      if (s.i : ℤ) < nblocks.toInt then
        let dbn := logDbn start nblocks s.i
        let b : LogBuf := ⟨s.obtained, s.dev dbn⟩
        -- a read that fails has a buffer, too
        (s.obtain.setJbp nblocks (some b)).bind fun s =>
          if readable dbn then
            if b.data.h_magic ≠ JBD_MAGIC ∨ b.data.h_sequence ≠ s.next_sequence then
              (s.brelse b.no).bind fun s => s.setJbp nblocks none
            else if b.data.h_blocktype = JBD_COMMIT_BLOCK then replayBlocks fuel (s.count.next 0)
            else if b.data.h_blocktype = JBD_DESCRIPTOR_BLOCK then
              (replayTags fs addr start nblocks b fs.bsize 0 s).bind fun s => replayBlocks fuel (s.next 0)
            else replayBlocks fuel (s.next 0)
          else .ok s
      else .ok s

/-- The loop behind `out`, up to the index `n`. -/
def releaseLog (s : Replay) : ℕ → Except ReplayFault Replay
  | 0 => .ok s
  | n + 1 =>
      (releaseLog s n).bind fun s =>
        (s.jbpAt nblocks n).bind fun b =>
          match b with
          | none => .ok s
          | some b => s.brelse b.no

/-- The buffer of the last copy is released. -/
def releaseLast (s : Replay) : Except ReplayFault Replay :=
  match s.jsb_bp with
  | none => .ok s
  | some no => s.brelse no

/-- `ext2_journal_replay` with `fuel` rounds of the loop over the log. -/
def journalReplayChecked (fuel : ℕ) (js : JournalState) : Except ReplayFault JournalState :=
  if js.jnlStart = 0 then .ok js
  else if js.jnlNblocks = 0 then .ok js
  else
    (replayBlocks fs readable addr js.jnlStart js.jnlNblocks fuel
        ⟨js.dev, fun _ => none, 0, js.sequence, none, [], 0⟩).bind fun s =>
      (releaseLog js.jnlNblocks s js.jnlNblocks.toInt.toNat).bind fun s =>
        (releaseLast s).bind fun s =>
          .ok { js with jnlStart := 0, jnlSequence := s.next_sequence, fmod := true, dev := s.dev }

end Replay

/-- **The replay is safe**: it comes back, every index is one of `jbp`, every tag is read in its block, and
every buffer that is released or written is held. -/
def JournalSafe (fs : MExt2fs) (readable : BitVec 32 → Bool) (addr : ℕ → ℤ) (js : JournalState) : Prop :=
  ∃ fuel r, journalReplayChecked fs readable addr fuel js = .ok r

/-! ### After a copy -/

theorem bind_ok {ε α β : Type} {x : Except ε α} {f : α → Except ε β} {b : β} (h : x.bind f = .ok b) :
    ∃ a, x = .ok a ∧ f a = .ok b := by
  cases x with
  | error e => cases h
  | ok a => exact ⟨a, rfl, h⟩

namespace Replay

variable {s s' : Replay} {no : ℕ} {nblocks : BitVec 32}

/-- No number is held before it was given. -/
def Fresh (s : Replay) : Prop := ∀ n ∈ s.held, n < s.obtained

theorem Fresh.obtain (h : s.Fresh) : s.obtain.Fresh := by
  intro n hn
  rcases List.mem_cons.1 hn with rfl | hn
  · exact Nat.lt_succ_self _
  · exact Nat.lt_succ_of_lt (h n hn)

theorem Fresh.not_mem (h : s.Fresh) : s.obtained ∉ s.held := fun hmem => absurd (h _ hmem) (lt_irrefl _)

/-- `buf_bwrite` has released the buffer of the last copy, which is still in `jsb_bp`. -/
structure Spoiled (s : Replay) : Prop where
  fresh : s.Fresh
  last : ∃ n, s.jsb_bp = some n ∧ n ∉ s.held ∧ n < s.obtained

theorem Spoiled.obtain (h : s.Spoiled) : s.obtain.Spoiled := by
  obtain ⟨n, hn, hheld, hlt⟩ := h.last
  refine ⟨h.fresh.obtain, n, hn, fun hmem => ?_, Nat.lt_succ_of_lt hlt⟩
  exact (List.mem_cons.1 hmem).elim (Nat.ne_of_lt hlt) hheld

theorem Spoiled.brelse (h : s.Spoiled) (hs : s.brelse no = .ok s') : s'.Spoiled := by
  obtain ⟨n, hn, hheld, hlt⟩ := h.last
  unfold Replay.brelse at hs
  split at hs
  · cases hs
    exact ⟨fun m hm => h.fresh m (List.mem_of_mem_erase hm), n, hn,
      fun hmem => hheld (List.mem_of_mem_erase hmem), hlt⟩
  · cases hs

theorem Spoiled.setJbp (h : s.Spoiled) {b : Option LogBuf} (hs : s.setJbp nblocks b = .ok s') : s'.Spoiled := by
  unfold Replay.setJbp at hs
  split at hs
  · cases hs
    exact ⟨h.fresh, h.last⟩
  · cases hs

theorem Spoiled.next (h : s.Spoiled) (n : ℕ) : (s.next n).Spoiled := ⟨h.fresh, h.last⟩

theorem Spoiled.count (h : s.Spoiled) : s.count.Spoiled := ⟨h.fresh, h.last⟩

/-- **A copy** leaves the number of a released buffer behind. -/
theorem Fresh.copied (h : s.Fresh) {data : LogBlock} {blkno : BitVec 32}
    (hs : { s.obtain with jsb_bp := some s.obtained }.bwrite s.obtained blkno data = .ok s') : s'.Spoiled := by
  unfold bwrite at hs
  split at hs
  · cases hs
    have hheld : (s.obtained :: s.held).erase s.obtained = s.held := List.erase_cons_head _ _
    refine ⟨fun m hm => ?_, s.obtained, rfl, ?_, Nat.lt_succ_self _⟩
    · exact Nat.lt_succ_of_lt (h m (hheld ▸ hm))
    · exact fun hmem => h.not_mem (hheld ▸ hmem)
  · cases hs

end Replay

section

variable {fs : MExt2fs} {readable : BitVec 32 → Bool} {addr : ℕ → ℤ} {start nblocks : BitVec 32}
  {s s' : Replay}

theorem replayCopy_spoiled (h : s.Spoiled) {tag_blocknr : BitVec 32}
    (hs : replayCopy start nblocks tag_blocknr s = .ok s') : s'.Spoiled := by
  obtain ⟨b, -, hs⟩ := bind_ok hs
  cases b with
  | none =>
    cases hs
    exact ⟨h.fresh, h.last⟩
  | some b =>
    have hfresh : ({ s with i := (tagIndex start nblocks s.i).toNat } : Replay).Fresh := h.fresh
    exact hfresh.copied hs

theorem replayTags_spoiled {desc : LogBuf} {fuel k : ℕ} (h : s.Spoiled)
    (hs : replayTags fs addr start nblocks desc fuel k s = .ok s') : s'.Spoiled := by
  induction fuel generalizing s k with
  | zero => cases hs
  | succ fuel ih =>
    obtain ⟨b, -, hs⟩ := bind_ok hs
    cases b with
    | none => cases hs
    | some b =>
      simp only at hs
      split at hs
      · obtain ⟨tag_blocknr, -, hs⟩ := bind_ok hs
        split at hs
        · cases hs
          exact h
        · obtain ⟨s₁, hs₁, hs⟩ := bind_ok hs
          have hs₁ := replayCopy_spoiled h hs₁
          obtain ⟨flags, -, hs⟩ := bind_ok hs
          split at hs
          · cases hs
            exact hs₁
          · exact ih hs₁ hs
      · cases hs
        exact h

/-- Whatever the loop over the log does, it does not mend this. -/
theorem replayBlocks_spoiled {fuel : ℕ} (h : s.Spoiled)
    (hs : replayBlocks fs readable addr start nblocks fuel s = .ok s') : s'.Spoiled := by
  induction fuel generalizing s with
  | zero => cases hs
  | succ fuel ih =>
    unfold replayBlocks at hs
    split at hs
    · obtain ⟨s₁, hs₁, hs⟩ := bind_ok hs
      have h₁ := h.obtain.setJbp hs₁
      split at hs
      · split at hs
        · obtain ⟨s₂, hs₂, hs⟩ := bind_ok hs
          exact (h₁.brelse hs₂).setJbp hs
        · split at hs
          · exact ih (h₁.count.next 0) hs
          · split at hs
            · obtain ⟨s₂, hs₂, hs⟩ := bind_ok hs
              exact ih ((replayTags_spoiled h₁ hs₂).next 0) hs
            · exact ih (h₁.next 0) hs
      · cases hs
        exact h₁
    · cases hs
      exact h

theorem releaseLog_spoiled {n : ℕ} (h : s.Spoiled) (hs : releaseLog nblocks s n = .ok s') : s'.Spoiled := by
  induction n generalizing s' with
  | zero =>
    cases hs
    exact h
  | succ n ih =>
    obtain ⟨s₁, hs₁, hs⟩ := bind_ok hs
    obtain ⟨b, -, hs⟩ := bind_ok hs
    cases b with
    | none =>
      cases hs
      exact ih hs₁
    | some b => exact (ih hs₁).brelse hs

/-- The buffer is released a second time at the end. -/
theorem releaseLast_spoiled (h : s.Spoiled) : releaseLast s ≠ .ok s' := by
  obtain ⟨n, hn, hheld, -⟩ := h.last
  unfold releaseLast
  rw [hn]
  show s.brelse n ≠ .ok s'
  unfold Replay.brelse
  rw [if_neg hheld]
  exact fun h => by cases h

end

/-! ### The walk -/

namespace Replay

/-- Every buffer of the log is held, once, and nothing was copied. -/
structure Kept (s : Replay) : Prop where
  fresh : s.Fresh
  owned : ∀ j b, s.jbp j = some b → b.no ∈ s.held
  once : ∀ j k b c, s.jbp j = some b → s.jbp k = some c → b.no = c.no → j = k
  last : s.jsb_bp = none

/-- Between two blocks: the pointers ahead are null, and the first one is not. -/
structure Walking (s : Replay) : Prop extends s.Kept where
  ahead : ∀ j, s.i ≤ j → s.jbp j = none
  first : 0 < s.i → (s.jbp 0).isSome

/-- At a block that was just read. -/
structure AtBlock (s : Replay) (b : LogBuf) : Prop extends s.Kept where
  here : s.jbp s.i = some b
  ahead : ∀ j, s.i < j → s.jbp j = none
  first : (s.jbp 0).isSome

/-- The buffer of a block that was read stands at the index. -/
def read (s : Replay) (blk : LogBlock) : Replay :=
  { s.obtain with jbp := Function.update s.jbp s.i (some ⟨s.obtained, blk⟩) }

variable {s s' : Replay} {b : LogBuf} {blk : LogBlock} {nblocks : BitVec 32}

theorem read_here : (s.read blk).jbp s.i = some ⟨s.obtained, blk⟩ := Function.update_self _ _ _

theorem read_other {j : ℕ} (hj : j ≠ s.i) : (s.read blk).jbp j = s.jbp j := Function.update_of_ne hj _ _

theorem Kept.read (h : s.Kept) : (s.read blk).Kept where
  fresh := h.fresh.obtain
  owned j b hb := by
    by_cases hj : j = s.i
    · rw [hj, read_here] at hb
      obtain rfl := Option.some.inj hb
      exact List.mem_cons_self
    · rw [read_other hj] at hb
      exact List.mem_cons_of_mem _ (h.owned j b hb)
  once j k b c hb hc hno := by
    have hold : ∀ {l : ℕ} {d : LogBuf}, s.jbp l = some d → d.no ≠ s.obtained := fun hd hno =>
      h.fresh.not_mem (hno ▸ h.owned _ _ hd)
    by_cases hj : j = s.i <;> by_cases hk : k = s.i
    · exact hj.trans hk.symm
    · rw [hj, read_here] at hb
      rw [read_other hk] at hc
      obtain rfl := Option.some.inj hb
      exact absurd hno.symm (hold hc)
    · rw [hk, read_here] at hc
      rw [read_other hj] at hb
      obtain rfl := Option.some.inj hc
      exact absurd hno (hold hb)
    · rw [read_other hj] at hb
      rw [read_other hk] at hc
      exact h.once j k b c hb hc hno
  last := h.last

theorem Walking.read (h : s.Walking) : (s.read blk).AtBlock ⟨s.obtained, blk⟩ where
  toKept := h.toKept.read
  here := read_here
  ahead j hj := by
    have hlt : s.i < j := hj
    rw [read_other hlt.ne']
    exact h.ahead j hlt.le
  first := by
    by_cases hi : 0 = s.i
    · rw [hi, read_here]
      rfl
    · rw [read_other hi]
      exact h.first (by omega)

/-- Further on the pointers are null again. -/
theorem AtBlock.next (h : s.AtBlock b) (n : ℕ) : (s.next n).Walking where
  toKept := ⟨h.fresh, h.owned, h.once, h.last⟩
  ahead j hj := by
    have hlt : s.i + n + 1 ≤ j := hj
    exact h.ahead j (by omega)
  first _ := h.first

theorem AtBlock.count (h : s.AtBlock b) : s.count.AtBlock b :=
  ⟨⟨h.fresh, h.owned, h.once, h.last⟩, h.here, h.ahead, h.first⟩

/-- A buffer of the log is released; the others are still held. -/
theorem Kept.brelse (h : s.Kept) {j : ℕ} (hb : s.jbp j = some b) :
    s.brelse b.no = .ok { s with held := s.held.erase b.no } ∧
      ∀ k c, k ≠ j → s.jbp k = some c → c.no ∈ s.held.erase b.no := by
  refine ⟨if_pos (h.owned j b hb), fun k c hk hc => ?_⟩
  have hne : c.no ≠ b.no := fun hno => hk (h.once k j c b hc hb hno)
  exact (List.mem_erase_of_ne hne).2 (h.owned k c hc)

end Replay

section

variable {fs : MExt2fs} {readable : BitVec 32 → Bool} {addr : ℕ → ℤ} {start nblocks : BitVec 32}
  {s s' : Replay} {b : LogBuf}

/-- **The buffers of the log are released**, each of them once. -/
theorem releaseLog_kept (h : s.Kept) {n : ℕ} (hn : n ≤ nblocks.toNat) :
    ∃ held, releaseLog nblocks s n = .ok { s with held := held } ∧
      ∀ j b, n ≤ j → s.jbp j = some b → b.no ∈ held := by
  induction n with
  | zero => exact ⟨s.held, rfl, fun j b _ => h.owned j b⟩
  | succ n ih =>
    obtain ⟨held, hrel, hheld⟩ := ih (by omega)
    have hat : ({ s with held := held } : Replay).jbpAt nblocks n = .ok (s.jbp n) := by
      unfold Replay.jbpAt
      rw [if_pos (by omega)]
      rfl
    unfold releaseLog
    rw [hrel]
    show ∃ held', (Replay.jbpAt _ nblocks n).bind _ = _ ∧ _
    rw [hat]
    cases hb : s.jbp n with
    | none => exact ⟨held, rfl, fun j b hj => hheld j b (by omega)⟩
    | some b =>
      refine ⟨held.erase b.no, if_pos (hheld n b (le_refl n) hb), fun j c hj hc => ?_⟩
      have hne : c.no ≠ b.no := fun hno => absurd (h.once j n c b hc hb hno) (by omega)
      exact (List.mem_erase_of_ne hne).2 (hheld j c (by omega) hc)

/-- The index of the next block, in range or not. -/
theorem tagIndex_eq (start nblocks : BitVec 32) (i : ℕ) :
    tagIndex start nblocks i =
      if start + BitVec.ofNat 32 (i + 1) < nblocks then ((i + 1 : ℕ) : ℤ) else ((i + 1 : ℕ) : ℤ) - nblocks.toNat := by
  have hcast : BitVec.ofInt 32 ((i : ℤ) + 1) = BitVec.ofNat 32 (i + 1) := BitVec.ofInt_natCast 32 (i + 1)
  unfold tagIndex
  simp only [hcast, Nat.cast_add, Nat.cast_one]
  by_cases hw : start + BitVec.ofNat 32 (i + 1) < nblocks
  · rw [if_neg (BitVec.not_le.2 hw), if_pos hw]
  · rw [if_pos (BitVec.not_lt.1 hw), if_neg hw]

/-- **A tag**: the index comes to the null pointer behind the descriptor, or a buffer is copied, or the
function leaves `jbp`. -/
theorem replayCopy_spec (start : BitVec 32) (h : s.AtBlock b) (hi : s.i < nblocks.toNat) (tag_blocknr : BitVec 32) :
    (s.i + 1 < nblocks.toNat ∧ start + BitVec.ofNat 32 (s.i + 1) < nblocks ∧
        replayCopy start nblocks tag_blocknr s = .ok { s with i := s.i + 1 }) ∨
      ¬(s.i + 1 < nblocks.toNat ∧ start + BitVec.ofNat 32 (s.i + 1) < nblocks) ∧
        ∀ s', replayCopy start nblocks tag_blocknr s = .ok s' → s'.Spoiled := by
  have hidx := tagIndex_eq start nblocks s.i
  by_cases hw : start + BitVec.ofNat 32 (s.i + 1) < nblocks
  · rw [if_pos hw] at hidx
    by_cases hlt : s.i + 1 < nblocks.toNat
    · refine .inl ⟨hlt, hw, ?_⟩
      have hat : s.jbpAt nblocks ((s.i + 1 : ℕ) : ℤ) = .ok none := by
        unfold Replay.jbpAt
        rw [if_pos (by omega)]
        exact congrArg Except.ok (h.ahead _ (by omega))
      unfold replayCopy
      rw [hidx, hat]
      rfl
    · refine .inr ⟨fun hc => hlt hc.1, fun s' hs => ?_⟩
      obtain ⟨b, hb, -⟩ := bind_ok hs
      unfold Replay.jbpAt at hb
      rw [hidx, if_neg (by omega)] at hb
      cases hb
  · rw [if_neg hw] at hidx
    refine .inr ⟨fun hc => hw hc.2, fun s' hs => ?_⟩
    obtain ⟨c, hc, hs⟩ := bind_ok hs
    unfold Replay.jbpAt at hc
    rw [hidx] at hc
    split at hc
    · next hrange =>
      -- all around, at the first block, whose buffer is there
      have hzero : (((s.i + 1 : ℕ) : ℤ) - nblocks.toNat).toNat = 0 := by omega
      have hfirst := h.first
      rw [hzero] at hc
      obtain rfl := Except.ok.inj hc
      cases hb : s.jbp 0 with
      | none =>
        rw [hb] at hfirst
        cases hfirst
      | some c =>
        rw [hb] at hs
        have hfresh : ({ s with i := (tagIndex start nblocks s.i).toNat } : Replay).Fresh := h.fresh
        exact hfresh.copied hs
    · cases hc

/-- **The tags of a descriptor**: none, one that fits, or no good. -/
theorem replayTags_spec (fs : MExt2fs) (addr : ℕ → ℤ) (start : BitVec 32) (h : s.AtBlock b) (hi : s.i < nblocks.toNat) :
    (b.data.tagBlocknr 0 = 0 ∧ replayTags fs addr start nblocks b fs.bsize 0 s = .ok s) ∨
      (b.data.tagBlocknr 0 ≠ 0 ∧ tagFits start nblocks s.i b.data ∧
        replayTags fs addr start nblocks b fs.bsize 0 s = .ok { s with i := s.i + 1 }) ∨
      b.data.tagBlocknr 0 ≠ 0 ∧ ¬tagFits start nblocks s.i b.data ∧
        ∀ s', replayTags fs addr start nblocks b fs.bsize 0 s = .ok s' → s'.Spoiled := by
  have hge : 1024 ≤ fs.bsize := by
    rcases fs.bsize_cases with hb | hb | hb <;> omega
  obtain ⟨m, hm⟩ : ∃ m, fs.bsize = m + 2 := ⟨fs.bsize - 2, by omega⟩
  have hat : s.jbpAt nblocks s.i = .ok (some b) := by
    unfold Replay.jbpAt
    rw [if_pos (by omega)]
    exact congrArg Except.ok h.here
  have hword : ∀ w < 16, tagWord fs.bsize b.data w = .ok (b.data w) := fun w hw => if_pos (by omega)
  have hround : replayTags fs addr start nblocks b fs.bsize 0 s =
      if b.data.tagBlocknr 0 = 0 then .ok s
      else (replayCopy start nblocks (b.data.tagBlocknr 0) s).bind fun s =>
        if b.data.tagFlags 1 &&& 0x08 ≠ 0 then .ok s
        else replayTags fs addr start nblocks b (m + 1) 1 s := by
    rw [hm, replayTags, hat]
    show (if addr b.no + 12 + 8 * (0 : ℕ) + 8 ≤ addr b.no + fs.bsize then _ else _) = _
    rw [if_pos (by omega), hword 3 (by decide)]
    show (if b.data 3 = 0 then _ else _) = _
    have hflags := hword 6 (by decide)
    simp only [Nat.mul_one, Nat.zero_add, Nat.reduceAdd, hflags]
    rfl
  by_cases hzero : b.data.tagBlocknr 0 = 0
  · refine .inl ⟨hzero, ?_⟩
    rw [hround, if_pos hzero]
  · rw [if_neg hzero] at hround
    refine .inr ?_
    rcases replayCopy_spec start h hi (b.data.tagBlocknr 0) with ⟨hlt, hw, hcopy⟩ | ⟨hnot, hcopy⟩
    · rw [hcopy] at hround
      by_cases hflag : b.data.tagFlags 1 &&& 0x08 ≠ 0
      · refine .inl ⟨hzero, ⟨⟨hlt, hw⟩, hflag⟩, ?_⟩
        rw [hround]
        exact if_pos hflag
      · refine .inr ⟨hzero, fun hfit => hflag hfit.2, fun s' hs => ?_⟩
        rw [hround] at hs
        have hs := (if_neg hflag).symm.trans hs
        -- the condition of the loop goes through the null pointer
        obtain ⟨c, hc, hs⟩ := bind_ok hs
        have hnull : ({ s with i := s.i + 1 } : Replay).jbpAt nblocks ((s.i + 1 : ℕ) : ℤ) = .ok none := by
          unfold Replay.jbpAt
          rw [if_pos (by omega)]
          exact congrArg Except.ok (h.ahead _ (by omega))
        obtain rfl := Except.ok.inj (hnull.symm.trans hc)
        cases hs
    · refine .inr ⟨hzero, fun hfit => hnot hfit.1, fun s' hs => ?_⟩
      rw [hround] at hs
      obtain ⟨s₁, hs₁, hs⟩ := bind_ok hs
      have hspoiled := hcopy s₁ hs₁
      split at hs
      · cases hs
        exact hspoiled
      · exact replayTags_spoiled hspoiled hs

/-! ### The loop over the log -/

/-- The next block is read into its buffer. -/
theorem setJbp_read (hlt : (s.i : ℤ) < nblocks.toInt) (blk : LogBlock) :
    s.obtain.setJbp nblocks (some ⟨s.obtained, blk⟩) = .ok (s.read blk) := by
  have hn := toInt_eq_of_lt hlt
  have hi : s.obtain.i < nblocks.toNat := by
    show s.i < nblocks.toNat
    omega
  exact if_pos hi

/-- Where the walk ends, the buffers that are left are held. -/
theorem replayBlocks_ends (fs : MExt2fs) (addr : ℕ → ℤ) (h : s.Walking)
    (hout : ¬headerAt readable start nblocks s.dev s.i s.next_sequence) (fuel : ℕ) :
    ∃ s', replayBlocks fs readable addr start nblocks (fuel + 1) s = .ok s' ∧ s'.Kept ∧ s'.dev = s.dev ∧
      s'.next_sequence = s.next_sequence := by
  unfold replayBlocks
  by_cases hlt : (s.i : ℤ) < nblocks.toInt
  swap
  · exact ⟨s, if_neg hlt, h.toKept, rfl, rfl⟩
  rw [if_pos hlt]
  simp only [setJbp_read hlt, Except.bind]
  have hat : (s.read (s.dev (logDbn start nblocks s.i))).AtBlock _ := h.read
  by_cases hr : readable (logDbn start nblocks s.i) = true
  swap
  · exact ⟨_, if_neg hr, hat.toKept, rfl, rfl⟩
  have hbad : (s.dev (logDbn start nblocks s.i)).h_magic ≠ JBD_MAGIC ∨
      (s.dev (logDbn start nblocks s.i)).h_sequence ≠
        (s.read (s.dev (logDbn start nblocks s.i))).next_sequence := by
    by_contra hc
    obtain ⟨hm, hq⟩ := not_or.1 hc
    exact hout ⟨hlt, hr, not_not.1 hm, not_not.1 hq⟩
  obtain ⟨hrel, hothers⟩ := hat.toKept.brelse hat.here
  simp only at hrel hothers
  rw [if_pos hr, if_pos hbad, hrel]
  have hn := toInt_eq_of_lt hlt
  have hi : (s.read (s.dev (logDbn start nblocks s.i))).i < nblocks.toNat := by
    show s.i < nblocks.toNat
    omega
  refine ⟨_, if_pos hi, ⟨fun n hn => hat.fresh n (List.mem_of_mem_erase hn), ?_, ?_, hat.last⟩, rfl, rfl⟩
  · intro j c hc
    by_cases hj : j = s.i
    · subst hj
      cases (Function.update_self _ _ _).symm.trans hc
    · exact hothers j c hj ((Function.update_of_ne hj _ _).symm.trans hc)
  · have hold : ∀ {j : ℕ} {c : LogBuf}, Function.update (s.read (s.dev (logDbn start nblocks s.i))).jbp s.i none j =
        some c → (s.read (s.dev (logDbn start nblocks s.i))).jbp j = some c := by
      intro j c hc
      by_cases hj : j = s.i
      · subst hj
        cases (Function.update_self _ _ _).symm.trans hc
      · exact (Function.update_of_ne hj _ _).symm.trans hc
    exact fun j k c d hc hd => hat.once j k c d (hold hc) (hold hd)

/-- A block with a header of the sequence number. -/
theorem replayBlocks_block (hhere : headerAt readable start nblocks s.dev s.i s.next_sequence) (fuel : ℕ) :
    replayBlocks fs readable addr start nblocks (fuel + 1) s =
      let blk := s.dev (logDbn start nblocks s.i)
      if blk.h_blocktype = JBD_COMMIT_BLOCK then
        replayBlocks fs readable addr start nblocks fuel ((s.read blk).count.next 0)
      else if blk.h_blocktype = JBD_DESCRIPTOR_BLOCK then
        (replayTags fs addr start nblocks ⟨s.obtained, blk⟩ fs.bsize 0 (s.read blk)).bind fun s =>
          replayBlocks fs readable addr start nblocks fuel (s.next 0)
      else replayBlocks fs readable addr start nblocks fuel ((s.read blk).next 0) := by
  obtain ⟨hlt, hr, hm, hq⟩ := hhere
  conv_lhs => unfold replayBlocks
  rw [if_pos hlt]
  simp only [setJbp_read hlt, Except.bind]
  have hgood : ¬((s.dev (logDbn start nblocks s.i)).h_magic ≠ JBD_MAGIC ∨
      (s.dev (logDbn start nblocks s.i)).h_sequence ≠
        (s.read (s.dev (logDbn start nblocks s.i))).next_sequence) :=
    not_or.2 ⟨not_not.2 hm, not_not.2 hq⟩
  rw [if_pos hr, if_neg hgood]

/-- The walk of `ext2JournalReplay` that stands where this one does. -/
structure SameWalk (s : Replay) (t : LogWalk) : Prop where
  i : s.i = t.i
  next_sequence : s.next_sequence = t.next_sequence
  dev : s.dev = t.dev

theorem SameWalk.next {t : LogWalk} (h : SameWalk s t) {blk : LogBlock} (n : ℕ) :
    SameWalk ((s.read blk).next n) ((t.read blk).next n) :=
  ⟨congrArg (· + n + 1) h.i, h.next_sequence, h.dev⟩

theorem SameWalk.count {t : LogWalk} (h : SameWalk s t) {blk : LogBlock} (n : ℕ) :
    SameWalk ((s.read blk).count.next n) ((t.read blk).count.next n) :=
  ⟨congrArg (· + n + 1) h.i, congrArg (· + 1) h.next_sequence, h.dev⟩

/-- **Where every descriptor fits** the loop ends, with the buffers of the log held and no copy made; it
has done what the walk has done. -/
theorem replayBlocks_fits (fs : MExt2fs) (addr : ℕ → ℤ) {t : LogWalk} {fuel : ℕ} (h : s.Walking) (ht : t.Between) (hsame : SameWalk s t)
    (hi : s.i ≤ nblocks.toInt.toNat) (hfuel : nblocks.toInt.toNat < fuel + s.i)
    (hfit : scanFits readable start nblocks s.dev fuel s.i s.next_sequence) :
    ∃ s' t', replayBlocks fs readable addr start nblocks fuel s = .ok s' ∧ s'.Kept ∧
      replayLoop fs readable start nblocks fuel t = some t' ∧ s'.dev = t'.dev ∧
      s'.next_sequence = t'.next_sequence := by
  induction fuel generalizing s t with
  | zero => omega
  | succ fuel ih =>
    rw [replayLoop_step fs readable start nblocks fuel ht, ← hsame.i, ← hsame.next_sequence, ← hsame.dev]
    by_cases hhere : headerAt readable start nblocks s.dev s.i s.next_sequence
    swap
    · obtain ⟨s', hs', hkept, hdev, hseq⟩ := replayBlocks_ends fs addr h hhere fuel
      exact ⟨s', t, hs', hkept, if_neg hhere, hdev.trans hsame.dev, hseq.trans hsame.next_sequence⟩
    rw [replayBlocks_block hhere, if_pos hhere]
    have hfit := hfit hhere
    have hn := toInt_eq_of_lt hhere.1
    have hlt := hhere.1
    have hm : (s.dev (logDbn start nblocks s.i)).h_magic = JBD_MAGIC := hhere.2.2.1
    simp only at hfit ⊢
    generalize s.dev (logDbn start nblocks s.i) = blk at hfit hm ⊢
    have hat : (s.read blk).AtBlock ⟨s.obtained, blk⟩ := h.read
    have hat' : (t.read blk).AtHeader := ht.read hm
    by_cases hc : blk.h_blocktype = JBD_COMMIT_BLOCK
    · rw [if_pos hc] at hfit
      rw [if_pos hc, if_pos hc]
      exact ih (hat.count.next 0) (hat'.count.next 0) (hsame.count 0) (by show s.i + 0 + 1 ≤ _; omega)
        (by show _ < fuel + (s.i + 0 + 1); omega) hfit
    rw [if_neg hc] at hfit
    rw [if_neg hc, if_neg hc]
    by_cases hd : blk.h_blocktype = JBD_DESCRIPTOR_BLOCK
    · rw [if_pos hd]
      rcases replayTags_spec fs addr start hat (by show s.i < nblocks.toNat; omega) with
        ⟨hzero, htags⟩ | ⟨htag, hfits, htags⟩ | ⟨htag, hno, -⟩
      · rw [htags]
        rw [if_neg fun hc => hc.2 hzero] at hfit ⊢
        exact ih (hat.next 0) (hat'.next 0) (hsame.next 0) (by show s.i + 0 + 1 ≤ _; omega)
          (by show _ < fuel + (s.i + 0 + 1); omega) hfit
      · rw [htags]
        rw [if_pos ⟨hd, htag⟩] at hfit ⊢
        have hroom : s.i + 1 < nblocks.toNat := hfits.1.1
        rw [if_pos hfit.1]
        exact ih (hat.next 1) (hat'.next 1) (hsame.next 1) (by show s.i + 1 + 1 ≤ _; omega)
          (by show _ < fuel + (s.i + 1 + 1); omega) hfit.2
      · rw [if_pos ⟨hd, htag⟩] at hfit
        exact absurd hfit.1 hno
    · rw [if_neg hd]
      rw [if_neg fun hc => hd hc.1] at hfit ⊢
      exact ih (hat.next 0) (hat'.next 0) (hsame.next 0) (by show s.i + 0 + 1 ≤ _; omega)
        (by show _ < fuel + (s.i + 0 + 1); omega) hfit

/-- **Where a descriptor does not fit** the loop comes back, if at all, with a buffer that is released
twice. -/
theorem replayBlocks_unfit {n fuel : ℕ} (h : s.Walking)
    (hunfit : ¬scanFits readable start nblocks s.dev n s.i s.next_sequence)
    (hs : replayBlocks fs readable addr start nblocks fuel s = .ok s') : s'.Spoiled := by
  induction n generalizing s fuel with
  | zero => exact absurd trivial hunfit
  | succ n ih =>
    cases fuel with
    | zero => cases hs
    | succ fuel =>
      obtain ⟨hhere, hunfit⟩ := Classical.not_imp.1 hunfit
      rw [replayBlocks_block hhere] at hs
      have hn := toInt_eq_of_lt hhere.1
      have hlt := hhere.1
      simp only at hs hunfit
      generalize s.dev (logDbn start nblocks s.i) = blk at hs hunfit
      have hat : (s.read blk).AtBlock ⟨s.obtained, blk⟩ := h.read
      by_cases hc : blk.h_blocktype = JBD_COMMIT_BLOCK
      · rw [if_pos hc] at hs hunfit
        exact ih (hat.count.next 0) hunfit hs
      rw [if_neg hc] at hs hunfit
      by_cases hd : blk.h_blocktype = JBD_DESCRIPTOR_BLOCK
      · rw [if_pos hd] at hs
        rcases replayTags_spec fs addr start hat
            (by show s.i < nblocks.toNat; omega) with
          ⟨hzero, htags⟩ | ⟨htag, hfits, htags⟩ | ⟨htag, hno, hspoiled⟩
        · rw [if_neg fun hc => hc.2 hzero] at hunfit
          rw [htags] at hs
          exact ih (hat.next 0) hunfit hs
        · rw [if_pos ⟨hd, htag⟩] at hunfit
          rw [htags] at hs
          exact ih (hat.next 1) (fun hrest => hunfit ⟨hfits, hrest⟩) hs
        · obtain ⟨s₁, hs₁, hs⟩ := bind_ok hs
          exact replayBlocks_spoiled ((hspoiled s₁ hs₁).next 0) hs
      · rw [if_neg hd] at hs
        rw [if_neg fun hc => hd hc.1] at hunfit
        exact ih (hat.next 0) hunfit hs

end

/-! ### The replay -/

section Results

variable (fs : MExt2fs) (readable : BitVec 32 → Bool) (addr : ℕ → ℤ) (js : JournalState)

theorem start_walking : Replay.Walking ⟨js.dev, fun _ => none, 0, js.sequence, none, [], 0⟩ where
  fresh _ hn := absurd hn List.not_mem_nil
  owned _ _ hb := by cases hb
  once _ _ _ _ hb := by cases hb
  last := rfl
  ahead _ _ := rfl
  first h := absurd h (lt_irrefl 0)

/-- **Where every descriptor fits** the replay comes back, and does what `ext2JournalReplay` does. -/
theorem journalReplayChecked_agrees (hfits : ScanFits readable js) :
    ∃ fuel r, journalReplayChecked fs readable addr fuel js = .ok r ∧ ext2JournalReplay fs readable js = some r := by
  unfold journalReplayChecked ext2JournalReplay
  by_cases hs : js.jnlStart = 0
  · exact ⟨0, js, if_pos hs, if_pos hs⟩
  by_cases hn : js.jnlNblocks = 0
  · exact ⟨0, js, (if_neg hs).trans (if_pos hn), (if_neg hs).trans (if_pos hn)⟩
  simp only [if_neg hs, if_neg hn]
  obtain ⟨s', t', hs', hkept, ht', hdev, hseq⟩ := replayBlocks_fits fs addr (start_walking js) (start_between js)
    ⟨rfl, rfl, rfl⟩ (Nat.zero_le _) (Nat.lt_succ_self _) (hfits.resolve_left hs)
  have hle : js.jnlNblocks.toInt.toNat ≤ js.jnlNblocks.toNat := by
    have hcond := BitVec.toInt_eq_toNat_cond js.jnlNblocks
    split at hcond <;> omega
  obtain ⟨held, hrel, -⟩ := releaseLog_kept hkept hle
  have hlast : releaseLast { s' with held := held } = .ok { s' with held := held } := by
    unfold releaseLast
    rw [hkept.last]
  refine ⟨js.jnlNblocks.toInt.toNat + 1,
    { js with jnlStart := 0, jnlSequence := s'.next_sequence, fmod := true, dev := s'.dev }, ?_, ?_⟩
  · rw [hs']
    show (releaseLog js.jnlNblocks s' _).bind _ = _
    rw [hrel]
    show (releaseLast _).bind _ = _
    rw [hlast]
    rfl
  · rw [ht', Option.map_some, ← hdev, ← hseq]

/-- **The replay is safe exactly where every descriptor it reaches fits**: it has no tag, or one tag, whose
block of data is in front of the end of the log and of the device blocks it counts round, and the second tag
has the flag of the last one. -/
theorem journal_safe_iff : JournalSafe fs readable addr js ↔ ScanFits readable js := by
  constructor
  · rintro ⟨fuel, r, hr⟩
    by_contra hunfit
    obtain ⟨hs, hscan⟩ := not_or.1 hunfit
    unfold journalReplayChecked at hr
    rw [if_neg hs] at hr
    split at hr
    · next hn =>
      refine hscan fun hhere => absurd hhere.1 ?_
      rw [hn]
      decide
    · obtain ⟨s₁, hs₁, hr⟩ := bind_ok hr
      obtain ⟨s₂, hs₂, hr⟩ := bind_ok hr
      obtain ⟨s₃, hs₃, -⟩ := bind_ok hr
      have hspoiled := replayBlocks_unfit (start_walking js) hscan hs₁
      exact releaseLast_spoiled (releaseLog_spoiled hspoiled hs₂) hs₃
  · intro hfits
    obtain ⟨fuel, r, hr, -⟩ := journalReplayChecked_agrees fs readable addr js hfits
    exact ⟨fuel, r, hr⟩

end Results

/-- A log of four blocks from block 1 on, with a descriptor of one tag in the third of them. -/
def lateDescriptor : JournalState where
  jnlStart := 1
  jnlSequence := 7
  jnlNblocks := 4
  fmod := false
  dev b k :=
    if b = 1 then [JBD_MAGIC, JBD_COMMIT_BLOCK, 7].getD k 0
    else if b = 2 then [JBD_MAGIC, JBD_COMMIT_BLOCK, 8].getD k 0
    else if b = 3 then [JBD_MAGIC, JBD_DESCRIPTOR_BLOCK, 9, 5, 8, 0, 8].getD k 0
    else 0

/-- The index of its block of data comes out as -1. -/
theorem lateDescriptor_unsafe : ¬JournalSafe volume4k (fun _ => true) (fun no => 4096 * no) lateDescriptor := by
  rintro ⟨fuel, r, hr⟩
  have hrun : ∀ n, journalReplayChecked volume4k (fun _ => true) (fun no => 4096 * no) (n + 3) lateDescriptor =
      .error .index := fun n => rfl
  rcases fuel with _ | _ | _ | n
  · cases hr
  · cases hr
  · cases hr
  · cases (hrun n).symm.trans hr

end Ext2fs
