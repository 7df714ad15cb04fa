import Mathlib.Data.List.Nodup
import Mathlib.Data.List.Perm.Basic
import Mathlib.Data.List.Rotate

/-!
# A bag kept as one list with a boundary

The list has a first part, in which every member of the bag stands once, and a second part with the
further copies.  Whether a value is in the bag is asked of the first part alone, how often it is there of
the whole list.

* `DupList.insert` — a new copy goes to the boundary, and the boundary moves over it when it is the first;
* `seek` — a value is sought among the places not yet passed, and swapped to the front of them;
* `take` — one copy is taken out, the head of the list filling its place;
* `insert_keeps`, `seek_perm`, `take_perm` — what each does to the bag.
-/

/-- The places up to the boundary, and those behind it. -/
structure DupList (α : Type*) where
  first : List α
  second : List α
  deriving DecidableEq, Repr

namespace DupList

variable {α : Type*} [DecidableEq α] {b x : α} {d : DupList α}

/-- The whole list. -/
def all (d : DupList α) : List α := d.first ++ d.second

/-- A new copy is put behind the boundary. -/
def insert (b : α) (d : DupList α) : DupList α :=
  if d.first = [] then ⟨[b], []⟩
  else if b ∈ d.first then ⟨d.first, b :: d.second⟩
  else ⟨d.first ++ [b], d.second⟩

/-- The list holds the bag `found` in its two parts. -/
structure TwoPart (found : List α) (d : DupList α) : Prop where
  single : d.first.Nodup
  mem_first : ∀ x, x ∈ d.first ↔ x ∈ found
  count : ∀ x, d.all.count x = found.count x

/-- The values of the second part are those found more than once. -/
theorem TwoPart.mem_second {found : List α} (h : TwoPart found d) :
    x ∈ d.second ↔ 2 ≤ found.count x := by
  have hcount := h.count x
  rw [all, List.count_append] at hcount
  rw [← List.count_pos_iff (a := x) (l := d.second)]
  by_cases hx : x ∈ d.first
  · have hone := List.count_eq_one_of_mem h.single hx
    omega
  · have hzero := List.count_eq_zero_of_not_mem hx
    have hnot := List.count_eq_zero_of_not_mem fun hc => hx ((h.mem_first x).2 hc)
    omega

/-- **A copy is inserted** in the two parts. -/
theorem insert_keeps {found : List α} (h : TwoPart found d) (b : α) :
    TwoPart (b :: found) (d.insert b) := by
  unfold insert
  by_cases hempty : d.first = []
  · have hfound : found = [] := by
      apply List.eq_nil_iff_forall_not_mem.2
      intro x hx
      have hmem := (h.mem_first x).2 hx
      rw [hempty] at hmem
      exact List.not_mem_nil hmem
    rw [if_pos hempty, hfound]
    exact ⟨List.nodup_singleton b, fun x => Iff.rfl, fun x => rfl⟩
  rw [if_neg hempty]
  by_cases hb : b ∈ d.first
  · rw [if_pos hb]
    refine ⟨h.single, fun x => ?_, fun x => ?_⟩
    · rw [List.mem_cons, ← h.mem_first]
      exact ⟨.inr, fun hx => hx.elim (fun heq => heq ▸ hb) id⟩
    · rw [List.count_cons, ← h.count]
      show (d.first ++ b :: d.second).count x = (d.first ++ d.second).count x + _
      rw [List.count_append, List.count_append, List.count_cons]
      omega
  · rw [if_neg hb]
    refine ⟨?_, fun x => ?_, fun x => ?_⟩
    · exact List.nodup_append.2 ⟨h.single, List.nodup_singleton b, fun x hx y hy heq =>
        hb (List.mem_singleton.1 hy ▸ heq ▸ hx)⟩
    · show x ∈ d.first ++ [b] ↔ _
      rw [List.mem_append, List.mem_singleton, List.mem_cons, h.mem_first]
      exact or_comm
    · rw [List.count_cons, ← h.count]
      show ((d.first ++ [b]) ++ d.second).count x = (d.first ++ d.second).count x + _
      rw [List.count_append, List.count_append, List.count_append, List.count_singleton]
      omega

/-! ### A value is sought among the places not passed -/

/-- The places not yet passed are `pre` and then `post`, and the search has come to `post`.  Where it
finds the value, the first place is passed with the value in it, and what stood there is moved. -/
def seek (b : α) : List α → List α → List α × ℕ
  | pre, [] => (pre, 0)
  | pre, y :: post =>
    if y = b then ((seek b (pre.rotate 1) post).1, (seek b (pre.rotate 1) post).2 + 1)
    else seek b (pre ++ [y]) post

/-- The search counts the places it finds, and loses nothing. -/
theorem seek_perm (b : α) (pre post : List α) :
    (seek b pre post).1.Perm (pre ++ post.filter (· ≠ b)) ∧ (seek b pre post).2 = post.count b := by
  induction post generalizing pre with
  | nil => exact ⟨by rw [List.filter_nil, List.append_nil]; exact List.Perm.refl _, rfl⟩
  | cons y post ih =>
    show ((if y = b then _ else _ : List α × ℕ).1).Perm _ ∧ (if y = b then _ else _ : List α × ℕ).2 = _
    by_cases hy : y = b
    · obtain ⟨hperm, hcount⟩ := ih (pre.rotate 1)
      rw [if_pos hy, List.filter_cons_of_neg (by simpa using hy), hy, List.count_cons_self]
      exact ⟨hperm.trans ((List.rotate_perm pre 1).append_right _), congrArg (· + 1) hcount⟩
    · obtain ⟨hperm, hcount⟩ := ih (pre ++ [y])
      rw [if_neg hy, List.filter_cons_of_pos (by simpa using hy), List.count_cons_of_ne hy]
      rw [List.append_assoc] at hperm
      exact ⟨hperm, hcount⟩

/-- The places found and the others are the places searched. -/
theorem seek_all (b : α) (post : List α) :
    (List.replicate (seek b [] post).2 b ++ (seek b [] post).1).Perm post := by
  obtain ⟨hperm, hcount⟩ := seek_perm b [] post
  rw [hcount]
  refine (hperm.append_left _).trans (List.perm_iff_count.2 fun x => ?_)
  rw [List.nil_append, List.count_append, List.count_replicate]
  by_cases hx : x = b
  · have hzero : (post.filter (· ≠ b)).count x = 0 := by
      refine List.count_eq_zero_of_not_mem fun hc => ?_
      exact of_decide_eq_true (List.mem_filter.1 hc).2 hx
    rw [hzero, hx, beq_self_eq_true, if_pos rfl, Nat.add_zero]
  · have hne : ¬(b == x) = true := by simpa using Ne.symm hx
    rw [if_neg hne, Nat.zero_add, List.count_filter (by simpa using hx)]

/-! ### A copy is taken out -/

/-- The place of the first copy gets what stands at the head, which is taken off. -/
def take (b : α) : List α → List α
  | [] => []
  | x :: l => if x = b then l else l.replace b x

theorem replace_perm {l : List α} (h : b ∈ l) : (b :: l.replace b x).Perm (x :: l) := by
  induction l with
  | nil => exact absurd h List.not_mem_nil
  | cons y l ih =>
    by_cases hy : y = b
    · rw [hy, List.replace_cons_self]
      exact List.Perm.swap x b l
    · rw [List.replace_cons, show (b == y) = false by simpa using Ne.symm hy]
      have hmem : b ∈ l := (List.mem_cons.1 h).resolve_left (Ne.symm hy)
      calc (b :: y :: l.replace b x).Perm (y :: b :: l.replace b x) := List.Perm.swap ..
        _ |>.Perm (y :: x :: l) := (ih hmem).cons y
        _ |>.Perm (x :: y :: l) := List.Perm.swap ..

/-- **A copy is taken out**, and the others stay. -/
theorem take_perm {l : List α} (h : b ∈ l) : (b :: take b l).Perm l := by
  cases l with
  | nil => exact absurd h List.not_mem_nil
  | cons x l =>
    show (b :: if x = b then l else l.replace b x).Perm (x :: l)
    by_cases hx : x = b
    · rw [if_pos hx, hx]
    · rw [if_neg hx]
      exact replace_perm ((List.mem_cons.1 h).resolve_left (Ne.symm hx))

theorem count_take {l : List α} (h : b ∈ l) (x : α) :
    (take b l).count x = l.count x - if x = b then 1 else 0 := by
  have hperm := (take_perm h).count_eq x
  rw [List.count_cons] at hperm
  by_cases hx : x = b
  · rw [if_pos hx, ← hperm, hx, beq_self_eq_true, if_pos rfl]
    omega
  · rw [if_neg hx, ← hperm, if_neg (by simpa using Ne.symm hx)]
    omega

end DupList
