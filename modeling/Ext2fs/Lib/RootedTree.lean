import Mathlib.Logic.Relation
import Mathlib.Data.Set.Insert
import Mathlib.Logic.Function.Basic

/-!
# Trees given by the parent of every node

A root, a set of nodes and a function that gives every other node its parent.

* `Up`, `Above` — a step up, and what is met above a node;
* `IsTree` — from every node one comes up to the root;
* `IsTree.add`, `IsTree.remove`, `IsTree.move` — a new leaf, a leaf that goes, and a node with all that is
  below it that gets another parent.
-/

namespace RootedTree

open Relation

variable {α : Type*} {root : α} {par par' : α → α} {nodes : Set α} {a d p x y : α}

/-- From a node other than the root one comes to its parent. -/
def Up (root : α) (par : α → α) (x y : α) : Prop := x ≠ root ∧ par x = y

/-- `a` is above `d`. -/
def Above (root : α) (par : α → α) (a d : α) : Prop := TransGen (Up root par) d a

/-- From every node one comes up to the root, over nodes. -/
structure IsTree (root : α) (par : α → α) (nodes : Set α) : Prop where
  root_mem : root ∈ nodes
  par_mem : ∀ d ∈ nodes, d ≠ root → par d ∈ nodes
  rooted : ∀ d ∈ nodes, ReflTransGen (Up root par) d root

theorem not_up_root : ¬Up root par root y := fun h => h.1 rfl

/-- Nothing is above the root. -/
theorem not_above_root : ¬Above root par a root := by
  intro h
  obtain ⟨y, hup, -⟩ := TransGen.head'_iff.1 h
  exact not_up_root hup

/-- What is above a node is its parent, or above that. -/
theorem above_iff (hx : x ≠ root) : Above root par a x ↔ a = par x ∨ Above root par a (par x) := by
  constructor
  · intro h
    obtain ⟨y, ⟨-, rfl⟩, hrest⟩ := TransGen.head'_iff.1 h
    rcases hrest.cases_head with rfl | ⟨z, hz, hrest⟩
    · exact .inl rfl
    · exact .inr (TransGen.head' hz hrest)
  · rintro (rfl | h)
    · exact TransGen.single ⟨hx, rfl⟩
    · exact TransGen.head ⟨hx, rfl⟩ h

namespace IsTree

/-- What is met on the way up is a node. -/
theorem mem_of_reaches (h : IsTree root par nodes) (hx : x ∈ nodes) (hy : ReflTransGen (Up root par) x y) :
    y ∈ nodes := by
  induction hy with
  | refl => exact hx
  | tail _ hup ih =>
    obtain ⟨hne, rfl⟩ := hup
    exact h.par_mem _ ih hne

end IsTree

/-- A way up that does not meet `d` is there whatever the parent of `d` is. -/
theorem reaches_congr (hpar : ∀ z, z ≠ d → par' z = par z) (h : ReflTransGen (Up root par) x root)
    (hd : ∀ z, ReflTransGen (Up root par) x z → z ≠ d) : ReflTransGen (Up root par') x root := by
  induction h using ReflTransGen.head_induction_on with
  | refl => exact .refl
  | @head x y hup _ ih =>
    have hx : par' x = par x := hpar x (hd x .refl)
    exact .head ⟨hup.1, hx.trans hup.2⟩ (ih fun z hz => hd z (.head hup hz))

namespace IsTree

variable [DecidableEq α]

/-- A new leaf. -/
theorem add (h : IsTree root par nodes) (hd : d ∉ nodes) (hp : p ∈ nodes) :
    IsTree root (Function.update par d p) (insert d nodes) := by
  have hroot : d ≠ root := fun hc => hd (hc ▸ h.root_mem)
  have hsame : ∀ z, z ≠ d → Function.update par d p z = par z := fun z hz => Function.update_of_ne hz _ _
  have hold : ∀ x ∈ nodes, ReflTransGen (Up root (Function.update par d p)) x root := fun x hx =>
    reaches_congr hsame (h.rooted x hx) fun z hz hc => hd (hc ▸ h.mem_of_reaches hx hz)
  refine ⟨Set.mem_insert_of_mem d h.root_mem, ?_, ?_⟩
  · rintro x (rfl | hx) hne
    · rw [Function.update_self]
      exact Set.mem_insert_of_mem _ hp
    · rw [hsame x fun hc => hd (hc ▸ hx)]
      exact Set.mem_insert_of_mem d (h.par_mem x hx hne)
  · rintro x (rfl | hx)
    · exact .head ⟨hroot, Function.update_self ..⟩ (hold p hp)
    · exact hold x hx

omit [DecidableEq α] in
/-- A leaf goes. -/
theorem remove (h : IsTree root par nodes) (hroot : d ≠ root) (hleaf : ∀ x ∈ nodes, x ≠ root → par x ≠ d) :
    IsTree root par (nodes \ {d}) where
  root_mem := ⟨h.root_mem, hroot.symm⟩
  par_mem x hx hne := ⟨h.par_mem x hx.1 hne, hleaf x hx.1 hne⟩
  rooted x hx := h.rooted x hx.1

/-- **A node gets another parent**, which is neither the node nor below it. -/
theorem move (h : IsTree root par nodes) (hroot : d ≠ root) (hp : p ∈ nodes) (hdp : d ≠ p)
    (habove : ¬Above root par d p) : IsTree root (Function.update par d p) nodes := by
  have hsame : ∀ z, z ≠ d → Function.update par d p z = par z := fun z hz => Function.update_of_ne hz _ _
  have hpath : ReflTransGen (Up root (Function.update par d p)) p root := by
    refine reaches_congr hsame (h.rooted p hp) ?_
    rintro z hz rfl
    rcases hz.cases_head with rfl | ⟨y, hy, hrest⟩
    · exact hdp rfl
    · exact habove (TransGen.head' hy hrest)
  refine ⟨h.root_mem, fun x hx hne => ?_, fun x hx => ?_⟩
  · by_cases hxd : x = d
    · rw [hxd, Function.update_self]
      exact hp
    · rw [hsame x hxd]
      exact h.par_mem x hx hne
  · have hway := h.rooted x hx
    induction hway using ReflTransGen.head_induction_on with
    | refl => exact .refl
    | @head x y hup _ ih =>
      obtain ⟨hne, rfl⟩ := hup
      by_cases hxd : x = d
      · rw [hxd]
        exact .head ⟨hroot, Function.update_self ..⟩ hpath
      · exact .head ⟨hne, hsame x hxd⟩ (ih (h.par_mem x hx hne))

end IsTree

end RootedTree
