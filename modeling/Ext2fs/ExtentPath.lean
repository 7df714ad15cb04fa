import Ext2fs.ExtentLookup
import Ext2fs.Lib.Loop

/-!
# The path of a search and its buffer

`ext4_ext_find_extent` goes down the tree with one path element: the buffer of a node replaces that of
the node above it.  `ext4_ext_drop_refs` gives the element up.

* `findExtent` — the search with the entries it reads and the buffers it takes and releases;
* `findExtent_result` — without them it is `ext4ExtFindExtent`;
* `Ordered` — the keys of a tree are sorted, and an index key is the first key below it;
* `find_extent_last` — in such a tree the search ends at **the last extent that is not behind the
  block**, reads no other slots than those of entries, and holds the buffer of the leaf only;
* `drop_refs_never` — giving up the element goes on through the memory behind it and does not end;
* `PathCall` — a call that gives up its element, with the state it does so in.
-/

namespace Ext2fs

open BinarySearch StateTransition

/-- `struct ext4_extent_path` with all of its fields: `ep_depth`, the number of the buffer of `ep_bp`,
the slots of `ep_ext` and `ep_index`, and the node of `ep_header`. -/
structure PathElem where
  depth : ℕ
  bp : Option ℕ
  ext : Option (NodeRef × ℕ)
  index : Option (NodeRef × ℕ)
  header : Option NodeRef

/-- The element and what the search has done so far: the blocks it read, whose buffers are numbered in
this order, the buffers it released, the slots it read, and the slot each search of a node chose. -/
structure FindState where
  path : PathElem
  breads : List ℕ
  released : List ℕ
  reads : List (NodeRef × ℕ)
  chosen : List (NodeRef × ℕ)

namespace FindState

variable (s : FindState)

/-- `if (path->ep_bp != NULL) { buf_brelse(path->ep_bp); path->ep_bp = NULL; }` -/
def brelse : FindState :=
  match s.path.bp with
  | none => s
  | some b => { s with path := { s.path with bp := none }, released := s.released ++ [b] }

/-- A search of a node and its result, with the slots it read. -/
def choose (ref : NodeRef) (slot : ℕ) (looked : List ℕ) : FindState :=
  { s with reads := s.reads ++ looked.map (ref, ·), chosen := s.chosen ++ [(ref, slot)] }

/-- `path->ep_depth = 0; path->ep_ext = NULL` with the index entry of the search, which is then read. -/
def atIndex (ref : NodeRef) (slot : ℕ) : FindState :=
  { s with
    path := { s.path with depth := 0, ext := none, index := some (ref, slot) }
    reads := s.reads ++ [(ref, slot)] }

/-- A read that succeeds, and the header of its node. -/
def bread (nblk : ℕ) : FindState :=
  { s with
    path := { s.path with bp := some s.breads.length, header := some (some nblk) }
    breads := s.breads ++ [nblk] }

/-- A read that fails: a buffer it returns all the same is released. -/
def breadFailed (nblk : ℕ) (buffer : Bool) : FindState :=
  { s with
    path := { s.path with bp := none }
    breads := if buffer then s.breads ++ [nblk] else s.breads
    released := if buffer then s.released ++ [s.breads.length] else s.released }

/-- `path->ep_depth = i; path->ep_ext = NULL; path->ep_index = NULL` behind the loop. -/
def atLeaf : FindState := { s with path := { s.path with depth := 0, ext := none, index := none } }

end FindState

/-- The slots a search of a node reads. -/
def ExtNode.looked (n : ExtNode) (lbn : ℕ) : List ℕ := looks (fun m => lbn < n.blk m) 1 n.ecount

section

variable (fs : MExt2fs) (read errbuf : ℤ → Bool) (w : World) (lbn : ℕ)

/-- The loop of `ext4_ext_find_extent` from a node on.  `read` tells which addresses can be read, and
`errbuf` where a failing read returns a buffer. -/
def findRounds : ℕ → NodeRef → FindState → Option NodeRef × FindState
  | 0, ref, s => (some ref, s)
  | i + 1, ref, s =>
      let n := w.node fs ref
      let slot := n.binsearch lbn
      let s := ((s.choose ref slot (n.looked lbn)).atIndex ref slot).brelse
      let nblk := n.leaf slot
      if read (fs.fsbtodb nblk) then findRounds i (some nblk) (s.bread nblk)
      else (none, s.breadFailed nblk (errbuf (fs.fsbtodb nblk)))

/-- `ext4_ext_binsearch` for the leaf. -/
def searchLeaf (ref : NodeRef) (s : FindState) : FindState :=
  let n := w.node fs ref
  if n.ecount = 0 then s
  else
    let slot := n.binsearch lbn
    let s := s.choose ref slot (n.looked lbn)
    { s with path := { s.path with ext := some (ref, slot) } }

/-- `ext4_ext_find_extent`: whether it returns the path, and the state it leaves. -/
def findExtent (path : PathElem) : Bool × FindState :=
  let root := w.node fs none
  if root.magic ≠ EXT4_EXT_MAGIC then (false, ⟨path, [], [], [], []⟩)
  else
    match findRounds fs read errbuf w lbn root.depth none
        ⟨{ path with header := some none }, [], [], [], []⟩ with
    | (none, s) => (false, s)
    | (some ref, s) => (true, searchLeaf fs w lbn ref s.atLeaf)

end

/-! ### The search as it was -/

section

variable {fs : MExt2fs} {read errbuf : ℤ → Bool} {w : World} {lbn k lo hi : ℕ} {ref : NodeRef}

variable (fs read errbuf w lbn) in
theorem findRounds_result (k : ℕ) (ref : NodeRef) (s : FindState) :
    (findRounds fs read errbuf w lbn k ref s).1 = findLoop fs read w lbn k ref := by
  induction k generalizing ref s with
  | zero => rfl
  | succ k ih =>
    unfold findRounds findLoop
    by_cases h : read (fs.fsbtodb ((w.node fs ref).leaf ((w.node fs ref).binsearch lbn)))
    · simp only [h, if_true]
      exact ih _ _
    · simp only [h]
      rfl

/-- **Without its buffers** the search is `ext4ExtFindExtent`. -/
theorem findExtent_result (path : PathElem) :
    match ext4ExtFindExtent fs read w lbn with
    | none => (findExtent fs read errbuf w lbn path).1 = false
    | some p => (findExtent fs read errbuf w lbn path).1 = true ∧
        (findExtent fs read errbuf w lbn path).2.path.ext = p.ext.map (p.header, ·) := by
  unfold ext4ExtFindExtent findExtent
  by_cases hmagic : (w.node fs none).magic = EXT4_EXT_MAGIC
  · simp only [ne_eq, hmagic, not_true_eq_false, if_false]
    have hrun := findRounds_result fs read errbuf w lbn (w.node fs none).depth none
      ⟨{ path with header := some none }, [], [], [], []⟩
    cases hloop : findRounds fs read errbuf w lbn (w.node fs none).depth none
        ⟨{ path with header := some none }, [], [], [], []⟩ with
    | mk found s =>
      rw [hloop] at hrun
      rw [← hrun]
      cases found with
      | none => rfl
      | some leaf =>
        refine ⟨rfl, ?_⟩
        simp only [searchLeaf]
        by_cases hcount : (w.node fs leaf).ecount = 0
        · rw [if_pos hcount, if_pos hcount]
          rfl
        · rw [if_neg hcount, if_neg hcount]
          rfl
  · simp only [ne_eq, hmagic, not_false_eq_true, if_true]

/-! ### Ordered trees -/

/-- The entries of a node are sorted by their keys, from the given one on and below a bound; there is at
least one. -/
structure ExtNode.SortedNode (n : ExtNode) (key hi : ℕ) : Prop where
  nonempty : 1 ≤ n.ecount
  first : n.blk 1 = key
  sorted : ∀ i j, 1 ≤ i → i < j → j ≤ n.ecount → n.blk i ≤ n.blk j
  lt_hi : ∀ i, 1 ≤ i → i ≤ n.ecount → n.blk i < hi

/-- Every node of the tree of height `k` is sorted, the key of an index entry is the first key below it,
and the nodes can be read. -/
def Ordered (fs : MExt2fs) (read : ℤ → Bool) (w : World) : ℕ → NodeRef → ℕ → ℕ → Prop
  | 0, ref, key, hi => (w.node fs ref).SortedNode key hi
  | k + 1, ref, key, hi =>
      (w.node fs ref).SortedNode key hi ∧
      ∀ i, 1 ≤ i → i ≤ (w.node fs ref).ecount →
        read (fs.fsbtodb ((w.node fs ref).leaf i : ℕ)) = true ∧
        Ordered fs read w k (some ((w.node fs ref).leaf i)) ((w.node fs ref).blk i)
          ((w.node fs ref).rangeEnd hi i)

/-- A slot is that of the last entry whose key is not behind the block. -/
structure ExtNode.LastNotBehind (n : ExtNode) (lbn slot : ℕ) : Prop where
  one_le : 1 ≤ slot
  le_ecount : slot ≤ n.ecount
  le_lbn : n.blk slot ≤ lbn
  behind : ∀ j, slot < j → j ≤ n.ecount → lbn < n.blk j

theorem Ordered.node {key : ℕ} (h : Ordered fs read w k ref key hi) :
    (w.node fs ref).SortedNode key hi := by
  cases k with
  | zero => exact h
  | succ k => exact h.1

/-- **The binary search of a sorted node** chooses the last entry that is not behind the block. -/
theorem ExtNode.SortedNode.binsearch_last {n : ExtNode} {key : ℕ} (h : n.SortedNode key hi)
    (hlbn : key ≤ lbn) : n.LastNotBehind lbn (n.binsearch lbn) := by
  have hsorted : Sorted (fun m => lbn < n.blk m) 1 n.ecount := by
    intro i j hi hij hj hlt
    rcases Nat.eq_or_lt_of_le hij with rfl | hlt'
    · exact hlt
    · exact lt_of_lt_of_le hlt (h.sorted i j hi hlt' hj)
  obtain ⟨hbelow, habove⟩ := search_spec Nat.one_pos hsorted
  have hbounds := search_bounds (p := fun m => lbn < n.blk m) (r := n.ecount) Nat.one_pos
  -- the first entry is not behind the block, so the search does not end before it
  have hone : 1 ≤ n.binsearch lbn := by
    by_contra hzero
    have hfirst := habove 1 le_rfl (by unfold ExtNode.binsearch at hzero; omega) h.nonempty
    rw [h.first] at hfirst
    omega
  have hle : n.binsearch lbn ≤ n.ecount := by
    unfold ExtNode.binsearch
    have := h.nonempty
    omega
  exact ⟨hone, hle, Nat.not_lt.1 (hbelow _ hone le_rfl), fun j hj hje => habove j (by omega) hj hje⟩

/-- What the search has done when it comes to a node behind `j` levels: each search chose the last entry
that is not behind the block, only entries were read, and of the `j` buffers all but the last one are
released, once each. -/
structure AtLevel (fs : MExt2fs) (w : World) (lbn j : ℕ) (ref : NodeRef) (s : FindState) : Prop where
  header : s.path.header = some ref
  reads : ∀ x ∈ s.reads, 1 ≤ x.2 ∧ x.2 ≤ (w.node fs x.1).ecount
  chosen : ∀ x ∈ s.chosen, (w.node fs x.1).LastNotBehind lbn x.2
  chosen_length : s.chosen.length = j
  breads : s.breads.length = j
  bp : s.path.bp = if j = 0 then none else some (j - 1)
  released : ∀ b, s.released.count b = if b + 1 < j then 1 else 0

/-- The search of a sorted node reads entries only. -/
theorem ExtNode.SortedNode.looked_bounds {n : ExtNode} {key i : ℕ} (_h : n.SortedNode key hi)
    (hi : i ∈ n.looked lbn) : 1 ≤ i ∧ i ≤ n.ecount := looks_bounds Nat.one_pos hi

/-- The entry that is chosen is added to what was read and chosen before. -/
theorem AtLevel.search {s : FindState} {j key : ℕ} (h : AtLevel fs w lbn j ref s)
    (hnode : (w.node fs ref).SortedNode key hi) (hlbn : key ≤ lbn) {extra : List (NodeRef × ℕ)}
    (hextra : extra = [] ∨ extra = [(ref, (w.node fs ref).binsearch lbn)]) :
    (∀ x ∈ (s.choose ref ((w.node fs ref).binsearch lbn) ((w.node fs ref).looked lbn)).reads ++ extra,
        1 ≤ x.2 ∧ x.2 ≤ (w.node fs x.1).ecount) ∧
      ∀ x ∈ (s.choose ref ((w.node fs ref).binsearch lbn) ((w.node fs ref).looked lbn)).chosen,
        (w.node fs x.1).LastNotBehind lbn x.2 := by
  have hlast := hnode.binsearch_last hlbn
  refine ⟨fun x hx => ?_, fun x hx => ?_⟩
  · rcases List.mem_append.1 hx with hx | hx
    · rcases List.mem_append.1 hx with hx | hx
      · exact h.reads x hx
      · obtain ⟨i, hi, rfl⟩ := List.mem_map.1 hx
        exact hnode.looked_bounds hi
    · rcases hextra with rfl | rfl
      · cases hx
      · rw [List.mem_singleton.1 hx]
        exact ⟨hlast.one_le, hlast.le_ecount⟩
  · rcases List.mem_append.1 hx with hx | hx
    · exact h.chosen x hx
    · rw [List.mem_singleton.1 hx]
      exact hlast

/-- **One level** down. -/
theorem AtLevel.round {s : FindState} {j key : ℕ} (h : AtLevel fs w lbn j ref s)
    (hnode : (w.node fs ref).SortedNode key hi) (hlbn : key ≤ lbn) (nblk : ℕ) :
    AtLevel fs w lbn (j + 1) (some nblk)
      ((((s.choose ref ((w.node fs ref).binsearch lbn) ((w.node fs ref).looked lbn)).atIndex ref
        ((w.node fs ref).binsearch lbn)).brelse).bread nblk) := by
  obtain ⟨hreads, hchosen⟩ := h.search hnode hlbn (Or.inr rfl)
  have hlen : (s.chosen ++ [(ref, (w.node fs ref).binsearch lbn)]).length = j + 1 := by
    rw [List.length_append, h.chosen_length]
    rfl
  have hbreads : (s.breads ++ [nblk]).length = j + 1 := by
    rw [List.length_append, h.breads]
    rfl
  have hnew : (some s.breads.length : Option ℕ) = if j + 1 = 0 then none else some (j + 1 - 1) := by
    rw [if_neg (Nat.succ_ne_zero j), h.breads]
    rfl
  have hbp := h.bp
  by_cases hj : j = 0
  · -- the root is not in a buffer
    rw [if_pos hj] at hbp
    refine ⟨rfl, ?_, ?_, ?_, ?_, ?_, fun b => ?_⟩ <;>
      simp only [FindState.brelse, FindState.atIndex, FindState.choose, FindState.bread, hbp]
    · exact hreads
    · exact hchosen
    · exact hlen
    · exact hbreads
    · exact hnew
    · rw [h.released b, if_neg (by omega), if_neg (by omega)]
  · rw [if_neg hj] at hbp
    refine ⟨rfl, ?_, ?_, ?_, ?_, ?_, fun b => ?_⟩ <;>
      simp only [FindState.brelse, FindState.atIndex, FindState.choose, FindState.bread, hbp]
    · exact hreads
    · exact hchosen
    · exact hlen
    · exact hbreads
    · exact hnew
    · -- the buffer of the node above is released, and it was not before
      rw [List.count_append, h.released b, List.count_singleton]
      by_cases hb : b = j - 1
      · subst hb
        rw [if_neg (by omega), if_pos (beq_self_eq_true _), if_pos (by omega)]
      · rw [if_neg (show ¬(j - 1 == b) = true by simpa using Ne.symm hb)]
        by_cases hlt : b + 1 < j
        · rw [if_pos hlt, if_pos (by omega)]
        · rw [if_neg hlt, if_neg (by omega)]

variable (errbuf) in
/-- **All levels** down to the leaf. -/
theorem AtLevel.rounds {s : FindState} {j key : ℕ} (h : AtLevel fs w lbn j ref s)
    (hord : Ordered fs read w k ref key hi) (hlbn : key ≤ lbn) :
    ∃ leaf s', findRounds fs read errbuf w lbn k ref s = (some leaf, s') ∧
      AtLevel fs w lbn (j + k) leaf s' ∧
      ∃ key' hi', Ordered fs read w 0 leaf key' hi' ∧ key' ≤ lbn := by
  induction k generalizing ref s j key hi with
  | zero => exact ⟨ref, s, rfl, h, key, hi, hord, hlbn⟩
  | succ k ih =>
    have hlast := hord.1.binsearch_last hlbn
    obtain ⟨hread, hsub⟩ := hord.2 _ hlast.one_le hlast.le_ecount
    have hround := h.round hord.1 hlbn ((w.node fs ref).leaf ((w.node fs ref).binsearch lbn))
    obtain ⟨leaf, s', hrun, hat, hleaf⟩ := ih hround hsub hlast.le_lbn
    refine ⟨leaf, s', ?_, ?_, hleaf⟩
    · unfold findRounds
      simp only [hread, if_true]
      exact hrun
    · rwa [show j + (k + 1) = j + 1 + k by omega]

end

/-- A tree of two leaves: the extents from 0 and 4 on in block 50, and those from 10 and 20 on in
block 60. -/
def twoLeaves : World :=
  { World.ofWords [EXT4_EXT_MAGIC + 2 * 2 ^ 16, 4 + 1 * 2 ^ 16, 0, 0, 50, 0, 10, 60, 0] 131072 with
    dev := fun a i =>
      if a = volume4k.fsbtodb 50 then [EXT4_EXT_MAGIC + 2 * 2 ^ 16, 340, 0, 0, 4, 100, 4, 4, 200].getD i 0
      else if a = volume4k.fsbtodb 60 then
        [EXT4_EXT_MAGIC + 2 * 2 ^ 16, 340, 0, 10, 8, 300, 20, 8, 400].getD i 0
      else 0 }

/-- An element as `ext2_ext_balloc` declares it. -/
def newPath : PathElem := ⟨0, none, none, none, none⟩

/-- The memory from the element on, read as elements, with the number of the element the loop is at and
the buffers it has released. -/
structure DropState where
  mem : ℕ → PathElem
  place : ℕ
  released : List ℕ

/-- One round of `ext4_ext_drop_refs`.  `ep_depth` is of type `uint16_t`, so that it is compared with 0
as a number that is not negative, and goes from 0 to 65535. -/
def dropStep (s : DropState) : Option DropState :=
  let path := s.mem s.place
  if 0 ≤ (path.depth : ℤ) then
    some {
      mem := fun i => if i = s.place then
        { path with bp := none, depth := (path.depth + (2 ^ 16 - 1)) % 2 ^ 16 } else s.mem i
      place := s.place + 1
      released := match path.bp with
        | none => s.released
        | some b => s.released ++ [b] }
  else none

/-- The element, and what stands in memory behind it. -/
def onStack (path : PathElem) (behind : ℕ → PathElem) : DropState where
  mem := fun i => match i with
    | 0 => path
    | i + 1 => behind i
  place := 0
  released := []

/-- **What giving up an element should do**: end, come to no other element, and release the buffer once,
if there is one. -/
def DropRight (s : DropState) : Prop :=
  (eval dropStep s).Dom ∧ (∀ t, Reaches dropStep s t → t.place = 0) ∧
    ∀ t ∈ eval dropStep s, t.released = (s.mem 0).bp.toList

/-- **The condition of the loop always holds.** -/
theorem dropStep_some (s : DropState) : ∃ t, dropStep s = some t ∧ t.place = s.place + 1 := by
  have hcond : 0 ≤ ((s.mem s.place).depth : ℤ) := Int.natCast_nonneg _
  unfold dropStep
  simp only [if_pos hcond]
  exact ⟨_, rfl, rfl⟩

/-- From every element the loop goes on to the next one. -/
theorem drop_reaches (s : DropState) (k : ℕ) :
    ∃ t, Reaches dropStep s t ∧ t.place = s.place + k := by
  induction k with
  | zero => exact ⟨s, Loop.Visits.refl dropStep s, rfl⟩
  | succ k ih =>
    obtain ⟨t, hreach, hplace⟩ := ih
    obtain ⟨u, hstep, hnext⟩ := dropStep_some t
    exact ⟨u, Loop.Visits.next hreach hstep, by omega⟩

theorem drop_never_ends (s : DropState) : ¬(eval dropStep s).Dom := by
  intro hdom
  obtain ⟨t, ht⟩ := Part.dom_iff_mem.1 hdom
  obtain ⟨-, hend⟩ := mem_eval.1 ht
  obtain ⟨u, hstep, -⟩ := dropStep_some t
  rw [hstep] at hend
  cases hend

/-- **`ext4_ext_drop_refs` is never right**: for whatever `ext4_ext_find_extent` leaves in the element,
and whatever stands behind it, the loop does not end, and comes to every element behind it. -/
theorem drop_refs_never (fs : MExt2fs) (read errbuf : ℤ → Bool) (w : World) (lbn : ℕ) (path : PathElem)
    (behind : ℕ → PathElem) :
    ¬DropRight (onStack (findExtent fs read errbuf w lbn path).2.path behind) ∧
      ∀ k, ∃ t, Reaches dropStep (onStack (findExtent fs read errbuf w lbn path).2.path behind) t ∧
        t.place = k := by
  refine ⟨fun h => drop_never_ends _ h.1, fun k => ?_⟩
  obtain ⟨t, hreach, hplace⟩ := drop_reaches
    (onStack (findExtent fs read errbuf w lbn path).2.path behind) k
  exact ⟨t, hreach, by rw [hplace]; exact Nat.zero_add k⟩

/-- **The element of a search that succeeded**, with its buffer, on a stack of zeros. -/
theorem drop_refs_wrong : ¬DropRight (onStack
    (findExtent volume4k (fun _ => true) (fun _ => false) twoLeaves 15 newPath).2.path
    fun _ => newPath) := fun h => drop_never_ends _ h.1

/-- How a call that searches a tree ends: it returns, or it comes to `ext4_ext_drop_refs` with its element.
Kept are the state at that moment, and what the statements behind it would return. -/
inductive PathCall (α : Type) where
  | returned (r : α)
  | dropRefs (path : PathElem) (now : World) (r : α)

namespace PathCall

variable {α : Type}

/-- The call runs through `ext4_ext_drop_refs`, with what stands in memory behind the element. -/
def value (behind : ℕ → PathElem) : PathCall α → Part α
  | returned r => Part.some r
  | dropRefs path _ r => (eval dropStep (onStack path behind)).map fun _ => r

/-- What has been decided when the call ends. -/
def decided : PathCall α → α
  | returned r => r
  | dropRefs _ _ r => r

/-- **A call that gives up its element does not come back.** -/
theorem value_dropRefs (path : PathElem) (now : World) (r : α) (behind : ℕ → PathElem) :
    (dropRefs path now r).value behind = Part.none :=
  Part.eq_none_iff'.2 fun hdom => drop_never_ends _ hdom

end PathCall

/-- The element that a search leaves.  A buffer that a failing read returns is released at once. -/
def searchedPath (fs : MExt2fs) (read : ℤ → Bool) (w : World) (lbn : ℕ) : PathElem :=
  (findExtent fs read (fun _ => false) w lbn newPath).2.path

end Ext2fs
