import Mathlib.Algebra.BigOperators.Group.Finset.Basic
import Mathlib.Algebra.BigOperators.Group.Finset.Piecewise
import Mathlib.Data.Multiset.Count

/-!
# References among nodes

Some of the nodes of a graph hold references to nodes, each a multiset of them.  `names` is how many
references there are to a node.  The lemmas say how it changes when what one node holds is replaced, when
a node starts to hold references, and when one stops.

* `names_update`, `names_insert`, `names_erase` — the three changes;
* `names_cons`, `names_drop` — one reference is taken, or dropped;
* `one_le_names` — a reference is counted.
-/

namespace References

variable {V : Type*} [DecidableEq V]

/-- The references to `i` of the nodes in `held`. -/
def names (held : Finset V) (refs : V → Multiset V) (i : V) : ℕ := ∑ d ∈ held, (refs d).count i

variable {held : Finset V} {refs : V → Multiset V} {d i j : V} {m : Multiset V}

/-- **What one node holds is replaced.** -/
theorem names_update (hd : d ∈ held) (m : Multiset V) (i : V) :
    names held (Function.update refs d m) i + (refs d).count i = names held refs i + m.count i := by
  have hsame : ∑ e ∈ held.erase d, (Function.update refs d m e).count i =
      ∑ e ∈ held.erase d, (refs e).count i := by
    apply Finset.sum_congr rfl
    intro e he
    rw [Function.update_of_ne (Finset.ne_of_mem_erase he)]
  unfold names
  rw [← Finset.add_sum_erase held _ hd, ← Finset.add_sum_erase held _ hd, Function.update_self, hsame]
  omega

/-- A node that holds no references is no matter. -/
theorem names_update_of_notMem (hd : d ∉ held) (m : Multiset V) (i : V) :
    names held (Function.update refs d m) i = names held refs i := by
  apply Finset.sum_congr rfl
  intro e he
  have hne : e ≠ d := ne_of_mem_of_not_mem he hd
  rw [Function.update_of_ne hne]

/-- A node starts to hold references. -/
theorem names_insert (hd : d ∉ held) (i : V) :
    names (insert d held) refs i = (refs d).count i + names held refs i :=
  Finset.sum_insert hd

/-- A node stops to hold references. -/
theorem names_erase (hd : d ∈ held) (i : V) :
    (refs d).count i + names (held.erase d) refs i = names held refs i :=
  Finset.add_sum_erase held (fun e => (refs e).count i) hd

/-- One more reference. -/
theorem names_cons (hd : d ∈ held) (hm : m = j ::ₘ refs d) (i : V) :
    names held (Function.update refs d m) i = names held refs i + if i = j then 1 else 0 := by
  have h : names held (Function.update refs d m) i + (refs d).count i = names held refs i + m.count i :=
    names_update hd m i
  rw [hm, Multiset.count_cons] at h
  rw [hm]
  omega

/-- One reference less. -/
theorem names_drop (hd : d ∈ held) (hm : refs d = j ::ₘ m) (i : V) :
    names held (Function.update refs d m) i + (if i = j then 1 else 0) = names held refs i := by
  have h : names held (Function.update refs d m) i + (refs d).count i = names held refs i + m.count i :=
    names_update hd m i
  rw [hm, Multiset.count_cons] at h
  omega

/-- A reference is counted. -/
theorem one_le_names (hd : d ∈ held) (hi : i ∈ refs d) : 1 ≤ names held refs i := by
  have hone : 1 ≤ (refs d).count i := Multiset.one_le_count_iff_mem.2 hi
  have hsum : (refs d).count i + names (held.erase d) refs i = names held refs i := names_erase hd i
  omega

end References
