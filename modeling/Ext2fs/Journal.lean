import Ext2fs.Basic
import Ext2fs.Lib.WriteLog

/-!
# Replaying the journal

`ext2_journal_replay` walks the log at a mount for writing.  It reads one block at a time, counts the
commit blocks, and in a descriptor it steps over one block of the log for every tag.  The data is to
come from the buffers of the log, but the buffer of the block it has stepped to was not read yet.

* `ext2JournalReplay` — the function, with its buffers, its index and the device;
* `Txn`, `committed` — the transactions that a log holds, and what they log;
* `ReplayCorrect` — the device holds what the committed transactions log, and nothing else is changed;
* `replay_device` — the function never writes a block;
* `journalReplay_correct_iff` — hence it is correct exactly where the log can be walked and all of its
  data is home already.
-/

namespace Ext2fs

/-! ### The log -/

/-- A block of the device, as its 32-bit words. -/
abbrev LogBlock := ℕ → BitVec 32

def JBD_MAGIC : BitVec 32 := 0xc03b3998
def JBD_DESCRIPTOR_BLOCK : BitVec 32 := 1
def JBD_COMMIT_BLOCK : BitVec 32 := 2

/-- `struct jbd_header` -/
def LogBlock.h_magic (blk : LogBlock) : BitVec 32 := blk 0
def LogBlock.h_blocktype (blk : LogBlock) : BitVec 32 := blk 1
def LogBlock.h_sequence (blk : LogBlock) : BitVec 32 := blk 2

/-- The two words of the `k`-th tag behind the header: the block number, and the flags. -/
def LogBlock.tagBlocknr (blk : LogBlock) (k : ℕ) : BitVec 32 := blk (3 + 2 * k)
def LogBlock.tagFlags (blk : LogBlock) (k : ℕ) : BitVec 32 := blk (4 + 2 * k)

/-- What the replay works on: the first three words of `e3fs_jnl_blks`, `e2fs_fmod` and the device. -/
structure JournalState where
  /-- `e3fs_jnl_blks[0]`, the start -/
  jnlStart : BitVec 32
  /-- `e3fs_jnl_blks[1]`, the sequence number -/
  jnlSequence : BitVec 32
  /-- `e3fs_jnl_blks[2]`, the length -/
  jnlNblocks : BitVec 32
  fmod : Bool
  dev : BitVec 32 → LogBlock

/-- The number of the first transaction. -/
def JournalState.sequence (js : JournalState) : BitVec 32 :=
  if js.jnlSequence = 0 then 1 else js.jnlSequence

/-! ### `ext2_journal_replay` -/

/-- The variables of the loops. -/
structure LogWalk where
  dev : BitVec 32 → LogBlock
  /-- the buffers of the log; `none` is a null pointer -/
  jbp : ℕ → Option LogBlock
  i : ℕ
  next_sequence : BitVec 32

/-- The buffer of the block at the index is there. -/
def LogWalk.read (s : LogWalk) (blk : LogBlock) : LogWalk :=
  { s with jbp := Function.update s.jbp s.i (some blk) }

/-- On to the next block but `n`. -/
def LogWalk.next (s : LogWalk) (n : ℕ) : LogWalk := { s with i := s.i + n + 1 }

/-- A commit block was counted. -/
def LogWalk.count (s : LogWalk) : LogWalk := { s with next_sequence := s.next_sequence + 1 }

section Replay

variable (fs : MExt2fs) (readable : BitVec 32 → Bool) (start nblocks : BitVec 32)

/-- The device block of an index: `dbn`. -/
def logDbn (i : ℕ) : BitVec 32 :=
  let dbn := start + BitVec.ofNat 32 i
  if nblocks ≤ dbn then dbn - nblocks else dbn

/-- One tag: the index goes on to the next block of the log, and the buffer there is copied home.
The result is `none` when the code leaves an array: the index may come out negative, and behind a header
`bcopy` reads a whole block. -/
def copyTag (tag_blocknr : BitVec 32) (s : LogWalk) : Option LogWalk :=
  let i : ℤ := s.i + 1
  let i := if nblocks ≤ start + BitVec.ofInt 32 i then i - nblocks.toNat else i
  if 0 ≤ i ∧ i < nblocks.toNat then
    match s.jbp i.toNat with
    | none => some { s with i := i.toNat }
    | some jdata =>
        if jdata.h_magic = JBD_MAGIC then none
        else some { s with i := i.toNat, dev := Function.update s.dev tag_blocknr jdata }
  else none

/-- The tags of the descriptor `blk`, which is the buffer at the index `desc`.  The condition of the
loop goes through `jbp[i]`, though the index has moved: it is `none` where that is a null pointer, or
another buffer.  The flags are those of the tag behind the one that was copied. -/
def tagLoop (desc : ℕ) (blk : LogBlock) : ℕ → ℕ → LogWalk → Option LogWalk
  | 0, _, _ => none
  | fuel + 1, k, s =>
      if (s.jbp s.i).isNone ∨ s.i ≠ desc then none
      else if 12 + 8 * k + 8 ≤ fs.bsize then
        if blk.tagBlocknr k = 0 then some s
        else
          (copyTag start nblocks (blk.tagBlocknr k) s).bind fun s =>
            if blk.tagFlags (k + 1) &&& 0x08 ≠ 0 then some s
            else tagLoop desc blk fuel (k + 1) s
      else some s

/-- The loop over the log. -/
def replayLoop : ℕ → LogWalk → Option LogWalk
  | 0, _ => none
  | fuel + 1, s =>
      if (s.i : ℤ) < nblocks.toInt then
        let dbn := logDbn start nblocks s.i
        if readable dbn then
          let blk := s.dev dbn
          if blk.h_magic ≠ JBD_MAGIC then some s
          else if blk.h_sequence ≠ s.next_sequence then some s
          else if blk.h_blocktype = JBD_COMMIT_BLOCK then
            replayLoop fuel ((s.read blk).count.next 0)
          else if blk.h_blocktype = JBD_DESCRIPTOR_BLOCK then
            (tagLoop fs start nblocks s.i blk fs.bsize 0 (s.read blk)).bind fun s =>
              replayLoop fuel (s.next 0)
          else replayLoop fuel ((s.read blk).next 0)
        else some s
      else some s

end Replay

/-- `ext2_journal_replay`; `none` when it does not come back from the walk. -/
def ext2JournalReplay (fs : MExt2fs) (readable : BitVec 32 → Bool) (js : JournalState) :
    Option JournalState :=
  if js.jnlStart = 0 then some js
  else if js.jnlNblocks = 0 then some js
  else
    (replayLoop fs readable js.jnlStart js.jnlNblocks (js.jnlNblocks.toInt.toNat + 1)
        ⟨js.dev, fun _ => none, 0, js.sequence⟩).map fun s =>
      { js with jnlStart := 0, jnlSequence := s.next_sequence, fmod := true, dev := s.dev }

/-! ### What a log holds -/

/-- A transaction: its number, and the blocks it logs with their data. -/
structure Txn where
  seq : BitVec 32
  writes : List (BitVec 32 × LogBlock)

/-- The homes that a descriptor with room for `n` tags names from the `k`-th on: up to the tag with the
flag of the last one, or a block number 0. -/
def tagHomes (blk : LogBlock) : ℕ → ℕ → List (BitVec 32)
  | 0, _ => []
  | n + 1, k =>
      if blk.tagBlocknr k = 0 then []
      else
        blk.tagBlocknr k ::
          if blk.tagFlags k &&& 0x08 ≠ 0 then [] else tagHomes blk n (k + 1)

/-- The committed transactions in a list of blocks.  `homes` are the homes of the data blocks that come
next, `writes` is what the transaction `seq` has logged so far; both are dropped where the unbroken
sequence ends before its commit block. -/
def committedIn (fs : MExt2fs) :
    List LogBlock → BitVec 32 → List (BitVec 32) → List (BitVec 32 × LogBlock) → List Txn
  | [], _, _, _ => []
  | blk :: log, seq, home :: homes, writes =>
      committedIn fs log seq homes (writes ++ [(home, blk)])
  | blk :: log, seq, [], writes =>
      if blk.h_magic = JBD_MAGIC ∧ blk.h_sequence = seq then
        if blk.h_blocktype = JBD_COMMIT_BLOCK then
          ⟨seq, writes⟩ :: committedIn fs log (seq + 1) [] []
        else if blk.h_blocktype = JBD_DESCRIPTOR_BLOCK then
          committedIn fs log seq (tagHomes blk ((fs.bsize - 12) / 8) 0) writes
        else committedIn fs log seq [] writes
      else []

namespace JournalState

variable (js : JournalState)

/-- The blocks of the log in order: a ring of the given length, from the start. -/
def ring : List LogBlock :=
  (List.range js.jnlNblocks.toNat).map fun k =>
    js.dev (BitVec.ofNat 32 ((js.jnlStart.toNat + k) % js.jnlNblocks.toNat))

/-- The committed transactions; a start of 0 is a clean journal. -/
def committed (fs : MExt2fs) : List Txn :=
  if js.jnlStart = 0 then [] else committedIn fs js.ring js.sequence [] []

/-- All that the committed transactions log, in order. -/
def logged (fs : MExt2fs) : List (BitVec 32 × LogBlock) := (js.committed fs).flatMap Txn.writes

/-- The final sequence number `final` counts the transaction. -/
def Counts (final : BitVec 32) (t : Txn) : Prop := t.seq - js.sequence < final - js.sequence

end JournalState

/-- **The replay is correct**: it comes back, a block that committed transactions log holds the data of
the last one of these, all other blocks are as before, and whatever a counted transaction logs holds its
data or that of a later one. -/
def ReplayCorrect (fs : MExt2fs) (readable : BitVec 32 → Bool) (js : JournalState) : Prop :=
  ∃ r, ext2JournalReplay fs readable js = some r ∧
    (∀ b x, WriteLog.lastWrite (js.logged fs) b = some x → r.dev b = x) ∧
    (∀ b, WriteLog.lastWrite (js.logged fs) b = none → r.dev b = js.dev b) ∧
    ∀ before t later, js.committed fs = before ++ t :: later → js.Counts r.jnlSequence t →
      ∀ w ∈ t.writes, (w.1, r.dev w.1) ∈ (t :: later).flatMap Txn.writes

/-! ### Where the log can be walked -/

section Fits

variable (readable : BitVec 32 → Bool) (start nblocks : BitVec 32) (dev : BitVec 32 → LogBlock)

/-- The walk goes on at an index: there is a block with a header of the sequence number. -/
def headerAt (i : ℕ) (seq : BitVec 32) : Prop :=
  (i : ℤ) < nblocks.toInt ∧ readable (logDbn start nblocks i) ∧
    (dev (logDbn start nblocks i)).h_magic = JBD_MAGIC ∧
    (dev (logDbn start nblocks i)).h_sequence = seq

instance (i : ℕ) (seq : BitVec 32) : Decidable (headerAt readable start nblocks dev i seq) :=
  inferInstanceAs (Decidable (_ ∧ _))

/-- The only tags that the loop gets past: the block it steps to is not behind the end of the log, and
the second tag of the descriptor has the flag of the last one. -/
def tagFits (i : ℕ) (blk : LogBlock) : Prop :=
  (i + 1 < nblocks.toNat ∧ start + BitVec.ofNat 32 (i + 1) < nblocks) ∧ blk.tagFlags 1 &&& 0x08 ≠ 0

instance (i : ℕ) (blk : LogBlock) : Decidable (tagFits start nblocks i blk) :=
  inferInstanceAs (Decidable (_ ∧ _))

/-- Every descriptor with a tag that the walk reaches from the index `i` fits. -/
def scanFits : ℕ → ℕ → BitVec 32 → Prop
  | 0, _, _ => True
  | fuel + 1, i, seq =>
      headerAt readable start nblocks dev i seq →
        let blk := dev (logDbn start nblocks i)
        if blk.h_blocktype = JBD_COMMIT_BLOCK then scanFits fuel (i + 1) (seq + 1)
        else if blk.h_blocktype = JBD_DESCRIPTOR_BLOCK ∧ blk.tagBlocknr 0 ≠ 0 then
          tagFits start nblocks i blk ∧ scanFits fuel (i + 2) seq
        else scanFits fuel (i + 1) seq

end Fits

/-- Every descriptor with a tag that the walk reaches fits. -/
def ScanFits (readable : BitVec 32 → Bool) (js : JournalState) : Prop :=
  js.jnlStart = 0 ∨
    scanFits readable js.jnlStart js.jnlNblocks js.dev (js.jnlNblocks.toInt.toNat + 1) 0 js.sequence

/-! ### The walk -/

/-- Between two blocks: the buffers ahead are still null, and the first one has a header. -/
structure LogWalk.Between (s : LogWalk) : Prop where
  ahead : ∀ j, s.i ≤ j → s.jbp j = none
  first : 0 < s.i → ∃ blk, s.jbp 0 = some blk ∧ blk.h_magic = JBD_MAGIC

/-- At a block with a header that was just read. -/
structure LogWalk.AtHeader (s : LogWalk) : Prop where
  here : (s.jbp s.i).isSome
  ahead : ∀ j, s.i < j → s.jbp j = none
  first : ∃ blk, s.jbp 0 = some blk ∧ blk.h_magic = JBD_MAGIC

namespace LogWalk

theorem Between.read {s : LogWalk} (h : s.Between) {blk : LogBlock} (hm : blk.h_magic = JBD_MAGIC) :
    (s.read blk).AtHeader where
  here := by simp [LogWalk.read]
  ahead j hj := by
    have hne : j ≠ s.i := Nat.ne_of_gt hj
    show Function.update s.jbp s.i (some blk) j = none
    rw [Function.update_of_ne hne]
    exact h.ahead j (Nat.le_of_lt hj)
  first := by
    show ∃ b, Function.update s.jbp s.i (some blk) 0 = some b ∧ _
    by_cases hi : s.i = 0
    · exact ⟨blk, by simp [hi], hm⟩
    · rw [Function.update_of_ne (Ne.symm hi)]
      exact h.first (Nat.pos_of_ne_zero hi)

theorem AtHeader.count {s : LogWalk} (h : s.AtHeader) : s.count.AtHeader where
  here := h.here
  ahead := h.ahead
  first := h.first

/-- Further on there is nothing but null pointers again. -/
theorem AtHeader.next {s : LogWalk} (h : s.AtHeader) (n : ℕ) : (s.next n).Between where
  ahead j hj := by
    apply h.ahead
    have : s.i + n + 1 ≤ j := hj
    omega
  first _ := h.first

end LogWalk

section Walk

variable (fs : MExt2fs) (readable : BitVec 32 → Bool) (start nblocks : BitVec 32)

/-- **A tag copies nothing**: the buffer after a header is null, and the only other one that the index
could come to is the first, where the copy would run past the end of the buffer. -/
theorem copyTag_eq (tag_blocknr : BitVec 32) {s : LogWalk} (h : s.AtHeader)
    (hi : s.i < nblocks.toNat) :
    copyTag start nblocks tag_blocknr s =
      if s.i + 1 < nblocks.toNat ∧ start + BitVec.ofNat 32 (s.i + 1) < nblocks then
        some { s with i := s.i + 1 }
      else none := by
  have hcast : BitVec.ofInt 32 ((s.i : ℤ) + 1) = BitVec.ofNat 32 (s.i + 1) :=
    BitVec.ofInt_natCast 32 (s.i + 1)
  rw [copyTag, hcast]
  by_cases hw : start + BitVec.ofNat 32 (s.i + 1) < nblocks
  · have htoNat : ((s.i : ℤ) + 1).toNat = s.i + 1 := by omega
    simp only [BitVec.not_le.mpr hw, if_false, hw, and_true, htoNat, h.ahead (s.i + 1) (by omega)]
    by_cases hlt : s.i + 1 < nblocks.toNat
    · rw [if_pos hlt, if_pos (by omega)]
    · rw [if_neg hlt, if_neg (by omega)]
  · -- wrapped around, the index is negative, or 0 when the descriptor was the last block
    simp only [BitVec.not_lt.mp hw, if_true, hw, and_false, if_false]
    by_cases hz : s.i + 1 = nblocks.toNat
    · obtain ⟨blk, hblk, hmagic⟩ := h.first
      have hzero : (((s.i : ℤ) + 1 - nblocks.toNat).toNat) = 0 := by omega
      simp only [hzero, hblk, hmagic, if_true, ite_self]
    · rw [if_neg (by omega)]

/-- The loop over the tags comes out after the first one, if at all. -/
theorem tagLoop_eq (blk : LogBlock) {s : LogWalk} (h : s.AtHeader) (hi : s.i < nblocks.toNat) :
    tagLoop fs start nblocks s.i blk fs.bsize 0 s =
      if blk.tagBlocknr 0 = 0 then some s
      else if tagFits start nblocks s.i blk then some { s with i := s.i + 1 }
      else none := by
  have hb : 1024 ≤ fs.bsize := by
    rcases fs.bsize_cases with hb | hb | hb <;> omega
  obtain ⟨m, hm⟩ : ∃ m, fs.bsize = m + 2 := ⟨fs.bsize - 2, by omega⟩
  have hnull : ¬((s.jbp s.i).isNone ∨ s.i ≠ s.i) := by
    simp [Option.isSome_iff_ne_none.mp h.here]
  rw [hm, tagLoop, if_neg hnull, if_pos (by omega), copyTag_eq start nblocks _ h hi]
  by_cases hz : blk.tagBlocknr 0 = 0
  · rw [if_pos hz, if_pos hz]
  · rw [if_neg hz, if_neg hz]
    by_cases hw : s.i + 1 < nblocks.toNat ∧ start + BitVec.ofNat 32 (s.i + 1) < nblocks
    · rw [if_pos hw]
      show (if blk.tagFlags 1 &&& 0x08 ≠ 0 then _ else _) = _
      -- without the flag the condition of the loop goes through a null pointer
      have hstop : tagLoop fs start nblocks s.i blk (m + 1) 1 { s with i := s.i + 1 } = none := by
        rw [tagLoop, if_pos (Or.inr (Nat.succ_ne_self s.i))]
      rw [hstop]
      simp only [tagFits, hw, true_and, and_self]
    · rw [if_neg hw, if_neg (fun hf => hw hf.1)]
      rfl

/-- Inside the loop the length is the same signed and unsigned. -/
theorem toInt_eq_of_lt {nblocks : BitVec 32} {i : ℕ} (h : (i : ℤ) < nblocks.toInt) :
    nblocks.toInt = nblocks.toNat := by
  have := BitVec.toInt_eq_toNat_cond nblocks
  split at this <;> omega

/-- One block of the log. -/
theorem replayLoop_step (fuel : ℕ) {s : LogWalk} (h : s.Between) :
    replayLoop fs readable start nblocks (fuel + 1) s =
      if headerAt readable start nblocks s.dev s.i s.next_sequence then
        let blk := s.dev (logDbn start nblocks s.i)
        if blk.h_blocktype = JBD_COMMIT_BLOCK then
          replayLoop fs readable start nblocks fuel ((s.read blk).count.next 0)
        else if blk.h_blocktype = JBD_DESCRIPTOR_BLOCK ∧ blk.tagBlocknr 0 ≠ 0 then
          if tagFits start nblocks s.i blk then
            replayLoop fs readable start nblocks fuel ((s.read blk).next 1)
          else none
        else replayLoop fs readable start nblocks fuel ((s.read blk).next 0)
      else some s := by
  rw [replayLoop]
  by_cases hh : headerAt readable start nblocks s.dev s.i s.next_sequence
  · rw [if_pos hh]
    obtain ⟨hlt, hr, hm, hq⟩ := hh
    have hin : s.i < nblocks.toNat := by
      have := toInt_eq_of_lt hlt
      omega
    have htag : tagLoop fs start nblocks s.i (s.dev (logDbn start nblocks s.i)) fs.bsize 0
        (s.read (s.dev (logDbn start nblocks s.i))) = _ :=
      tagLoop_eq fs start nblocks (s.dev (logDbn start nblocks s.i)) (h.read hm) hin
    simp only [hlt, hr, hm, hq, if_true, ne_eq, not_true_eq_false, if_false, htag]
    by_cases hd : (s.dev (logDbn start nblocks s.i)).h_blocktype = JBD_DESCRIPTOR_BLOCK
    · by_cases ht : (s.dev (logDbn start nblocks s.i)).tagBlocknr 0 = 0
      · simp [hd, ht]
      · by_cases hf : tagFits start nblocks s.i (s.dev (logDbn start nblocks s.i))
        · have hf' : tagFits start nblocks (s.read (s.dev (logDbn start nblocks s.i))).i
              (s.dev (logDbn start nblocks s.i)) := hf
          simp only [hd, ht, hf, hf', if_true, if_false, not_false_eq_true, and_self, Option.bind_some]
          rfl
        · have hf' : ¬tagFits start nblocks (s.read (s.dev (logDbn start nblocks s.i))).i
              (s.dev (logDbn start nblocks s.i)) := hf
          simp only [hd, ht, hf, hf', if_true, if_false, not_false_eq_true, and_self, Option.bind_none]
    · simp [hd]
  · rw [if_neg hh]
    by_cases hlt : (s.i : ℤ) < nblocks.toInt
    swap
    · rw [if_neg hlt]
    rw [if_pos hlt]
    by_cases hr : readable (logDbn start nblocks s.i) = true
    swap
    · rw [if_neg hr]
    rw [if_pos hr]
    by_cases hm : (s.dev (logDbn start nblocks s.i)).h_magic = JBD_MAGIC
    swap
    · rw [if_pos hm]
    rw [if_neg (not_not.mpr hm), if_pos (fun hq => hh ⟨hlt, hr, hm, hq⟩)]

/-- **The walk writes no block, and it comes back exactly when every descriptor it reaches fits.** -/
theorem replayLoop_spec (fuel : ℕ) {s : LogWalk} (h : s.Between) (hi : s.i ≤ nblocks.toInt.toNat)
    (hfuel : nblocks.toInt.toNat < fuel + s.i) :
    (∀ s', replayLoop fs readable start nblocks fuel s = some s' → s'.dev = s.dev) ∧
      ((replayLoop fs readable start nblocks fuel s).isSome ↔
        scanFits readable start nblocks s.dev fuel s.i s.next_sequence) := by
  induction fuel generalizing s with
  | zero => omega
  | succ fuel ih =>
    rw [replayLoop_step fs readable start nblocks fuel h, scanFits]
    by_cases hh : headerAt readable start nblocks s.dev s.i s.next_sequence
    swap
    · rw [if_neg hh]
      exact ⟨fun s' hs' => by cases hs'; rfl, by simp [hh]⟩
    have hat := h.read hh.2.2.1
    have hn := toInt_eq_of_lt hh.1
    have hlt := hh.1
    simp only [hh, if_true, forall_const]
    generalize s.dev (logDbn start nblocks s.i) = blk at hat ⊢
    have hnext := ih (hat.next 0) (by show s.i + 0 + 1 ≤ _; omega) (by show _ < fuel + (s.i + 0 + 1); omega)
    by_cases hc : blk.h_blocktype = JBD_COMMIT_BLOCK
    · simp only [hc, if_true]
      exact ih (hat.count.next 0) (by show s.i + 0 + 1 ≤ _; omega)
        (by show _ < fuel + (s.i + 0 + 1); omega)
    by_cases hd : blk.h_blocktype = JBD_DESCRIPTOR_BLOCK ∧ blk.tagBlocknr 0 ≠ 0
    · rw [if_neg hc, if_neg hc, if_pos hd, if_pos hd]
      by_cases hf : tagFits start nblocks s.i blk
      · have hroom := hf.1.1
        simp only [hf, if_true, true_and]
        exact ih (hat.next 1) (by show s.i + 1 + 1 ≤ _; omega)
          (by show _ < fuel + (s.i + 1 + 1); omega)
      · simp [hf]
    · rw [if_neg hc, if_neg hc, if_neg hd, if_neg hd]
      exact hnext

end Walk

/-! ### The replay -/

section Results

variable (fs : MExt2fs) (readable : BitVec 32 → Bool) (js : JournalState)

/-- The state at the start of the walk. -/
theorem start_between : LogWalk.Between ⟨js.dev, fun _ => none, 0, js.sequence⟩ where
  ahead _ _ := rfl
  first h := absurd h (Nat.lt_irrefl 0)

/-- **The replay leaves the device as it was**, whatever the log holds. -/
theorem replay_device {r : JournalState} (h : ext2JournalReplay fs readable js = some r) :
    r.dev = js.dev := by
  unfold ext2JournalReplay at h
  split at h
  · cases h
    rfl
  · split at h
    · cases h
      rfl
    · obtain ⟨s, hs, rfl⟩ := Option.map_eq_some_iff.mp h
      exact (replayLoop_spec fs readable _ _ _ (start_between js) (Nat.zero_le _)
        (Nat.lt_succ_self _)).1 s hs

/-- The replay comes back exactly when the log can be walked. -/
theorem replay_returns_iff : (∃ r, ext2JournalReplay fs readable js = some r) ↔ ScanFits readable js := by
  rw [← Option.isSome_iff_exists, ScanFits]
  by_cases hs : js.jnlStart = 0
  · simp [ext2JournalReplay, hs]
  · by_cases hn : js.jnlNblocks = 0
    · -- an empty log is not walked at all
      have hout : ¬headerAt readable js.jnlStart js.jnlNblocks js.dev 0 js.sequence := by
        intro hh
        have := hh.1
        simp [hn] at this
      have hfits : js.jnlStart = 0 ∨ scanFits readable js.jnlStart js.jnlNblocks js.dev
          (js.jnlNblocks.toInt.toNat + 1) 0 js.sequence := Or.inr fun hh => absurd hh hout
      have hret : ext2JournalReplay fs readable js = some js := by
        rw [ext2JournalReplay, if_neg hs, if_pos hn]
      rw [hret]
      exact ⟨fun _ => hfits, fun _ => rfl⟩
    · simp only [ext2JournalReplay, hs, hn, if_false, Option.isSome_map, false_or]
      exact (replayLoop_spec fs readable _ _ _ (start_between js) (Nat.zero_le _)
        (Nat.lt_succ_self _)).2

/-- Every block that committed transactions log holds the data of the last one of these. -/
def JournalState.AlreadyHome : Prop :=
  ∀ b x, WriteLog.lastWrite (js.logged fs) b = some x → js.dev b = x

/-- With all data home, every transaction is applied as far as no later one has overwritten it. -/
theorem JournalState.AlreadyHome.applied (h : js.AlreadyHome fs) {before later : List Txn} {t : Txn}
    (hsplit : js.committed fs = before ++ t :: later) {w : BitVec 32 × LogBlock} (hw : w ∈ t.writes) :
    (w.1, js.dev w.1) ∈ (t :: later).flatMap Txn.writes := by
  have hmem : w ∈ (t :: later).flatMap Txn.writes :=
    List.mem_flatMap.mpr ⟨t, List.mem_cons_self, hw⟩
  obtain ⟨x, hx⟩ := WriteLog.exists_lastWrite hmem
  have hlast : WriteLog.lastWrite (js.logged fs) w.1 = some x := by
    rw [JournalState.logged, hsplit, List.flatMap_append, WriteLog.lastWrite_append, hx]
    rfl
  rw [h w.1 x hlast]
  exact WriteLog.mem_of_lastWrite hx

/-- **The replay is correct exactly where the log can be walked and holds nothing that is not home
already.** -/
theorem journalReplay_correct_iff :
    ReplayCorrect fs readable js ↔ ScanFits readable js ∧ js.AlreadyHome fs := by
  constructor
  · rintro ⟨r, hr, hlast, -, -⟩
    refine ⟨(replay_returns_iff fs readable js).mp ⟨r, hr⟩, ?_⟩
    intro b x hx
    rw [← replay_device fs readable js hr]
    exact hlast b x hx
  · rintro ⟨hfits, hhome⟩
    obtain ⟨r, hr⟩ := (replay_returns_iff fs readable js).mpr hfits
    have hdev := replay_device fs readable js hr
    refine ⟨r, hr, ?_, ?_, ?_⟩
    · rw [hdev]
      exact hhome
    · intro b _
      rw [hdev]
    · intro before t later hsplit _ w hw
      rw [hdev]
      exact JournalState.AlreadyHome.applied fs js hhome hsplit hw

end Results

/-- A log of four blocks from block 1 on: transaction 7 logs block 5 and is committed. -/
def fiveLogged : JournalState where
  jnlStart := 1
  jnlSequence := 7
  jnlNblocks := 4
  fmod := false
  dev b k :=
    if b = 1 then [JBD_MAGIC, JBD_DESCRIPTOR_BLOCK, 7, 5, 8, 0, 8].getD k 0
    else if b = 2 then 0x11
    else if b = 3 then [JBD_MAGIC, JBD_COMMIT_BLOCK, 7].getD k 0
    else 0

/-- **The replay counts the transaction and drops it**: block 5 keeps its old contents. -/
theorem fiveLogged_lost :
    (∃ r, ext2JournalReplay volume4k (fun _ => true) fiveLogged = some r ∧ r.jnlSequence = 8 ∧
      WriteLog.lastWrite (fiveLogged.logged volume4k) 5 = some (fiveLogged.dev 2) ∧
      r.dev 5 ≠ fiveLogged.dev 2) ∧
    ¬ReplayCorrect volume4k (fun _ => true) fiveLogged := by
  have hlogged : fiveLogged.logged volume4k = [(5, fiveLogged.dev 2)] := rfl
  have hfinal : (ext2JournalReplay volume4k (fun _ => true) fiveLogged).map (fun r => r.jnlSequence) =
      some 8 := rfl
  have hlast : WriteLog.lastWrite (fiveLogged.logged volume4k) 5 = some (fiveLogged.dev 2) := by
    rw [hlogged]
    rfl
  have hne : fiveLogged.dev 5 ≠ fiveLogged.dev 2 := by
    intro h
    exact absurd (congrFun h 0) (by decide)
  constructor
  · obtain ⟨r, hr, hseq⟩ := Option.map_eq_some_iff.mp hfinal
    refine ⟨r, hr, hseq, hlast, ?_⟩
    rw [replay_device volume4k _ fiveLogged hr]
    exact hne
  · rintro ⟨r, hr, hcorrect, -, -⟩
    have := hcorrect 5 _ hlast
    rw [replay_device volume4k _ fiveLogged hr] at this
    exact hne this

end Ext2fs
