import Ext2fs.Lib.Loop
import Mathlib.Data.List.Nodup
import Mathlib.Logic.Function.Basic

/-!
# Trees of first children and next siblings

A forest kept in three pointers a node: its first child, its next sibling and its parent.  New children
are put in front of the list of their parent.  A walk over a tree needs no stack: it goes down to a first
child that is not marked yet, else on to the sibling, else up to the parent.

* `Seg` — nodes that hang together by sibling pointers;
* `hang_spec` — the lists after new children were put in front;
* `seg_cycle` — a list that was put in front of itself has no end;
* `walk_spec` — the walk marks a tree that is hung up properly, and nothing else.
-/

namespace ChildSibling

open StateTransition Relation

variable {N S : Type*}

/-- The pointers. -/
structure Links (N : Type*) where
  child : N → Option N
  sibling : N → Option N
  parent : N → Option N

/-- Nodes that hang together by sibling pointers, from one pointer to another. -/
def Seg (sib : N → Option N) : Option N → List N → Option N → Prop
  | x, [], y => x = y
  | x, k :: ks, y => x = some k ∧ Seg sib (sib k) ks y

theorem Seg.append {sib : N → Option N} {x y z : Option N} {ks ls : List N} (h : Seg sib x ks y)
    (h' : Seg sib y ls z) : Seg sib x (ks ++ ls) z := by
  induction ks generalizing x with
  | nil => exact (show x = y from h) ▸ h'
  | cons k ks ih => exact ⟨h.1, ih h.2⟩

theorem Seg.congr {sib sib' : N → Option N} {x y : Option N} {ks : List N} (h : Seg sib x ks y)
    (heq : ∀ k ∈ ks, sib' k = sib k) : Seg sib' x ks y := by
  induction ks generalizing x with
  | nil => exact h
  | cons k ks ih =>
    refine ⟨h.1, ?_⟩
    rw [heq k (List.mem_cons_self ..)]
    exact ih h.2 fun j hj => heq j (List.mem_cons_of_mem _ hj)

/-- **A list that leads back to its own start has no end.** -/
theorem seg_cycle {sib : N → Option N} {x : Option N} {ks ls : List N} (hne : ks ≠ [])
    (h : Seg sib x ks x) : ¬Seg sib x ls none := by
  -- every list from `x` to the end has the circle in front, and what is left is shorter
  have hcut : ∀ (ks ls : List N) (x y : Option N), Seg sib x ks y → Seg sib x ls none →
      y = none ∨ ∃ ms, Seg sib y ms none ∧ ms.length + ks.length = ls.length := by
    intro ks
    induction ks with
    | nil =>
      intro ls x y hk hl
      exact .inr ⟨ls, (show x = y from hk) ▸ hl, by simp⟩
    | cons k ks ih =>
      intro ls x y hk hl
      cases ls with
      | nil => exact absurd (hk.1.symm.trans (show x = none from hl)) (Option.some_ne_none k)
      | cons l ls =>
        obtain rfl : k = l := Option.some.inj (hk.1.symm.trans hl.1)
        rcases ih ls _ y hk.2 hl.2 with hy | ⟨ms, hms, hlen⟩
        · exact .inl hy
        · exact .inr ⟨ms, hms, by simp only [List.length_cons]; omega⟩
  intro hl
  induction hn : ls.length using Nat.strong_induction_on generalizing ls with
  | _ n ih =>
    rcases hcut ks ls x x h hl with hx | ⟨ms, hms, hlen⟩
    · cases ks with
      | nil => exact hne rfl
      | cons k ks => exact absurd (h.1.symm.trans hx) (Option.some_ne_none k)
    · have hpos := List.length_pos_iff.2 hne
      exact ih ms.length (by omega) hms rfl

section

variable [DecidableEq N]

/-! ### Hanging children up -/

/-- A node becomes the first child of another one. -/
def Links.push (L : Links N) (p d : N) : Links N where
  child := Function.update L.child p (some d)
  sibling := Function.update L.sibling d (L.child p)
  parent := Function.update L.parent d (some p)

/-- The nodes of a list are hung up, those that have a parent. -/
def Links.hang (par : N → Option N) : List N → Links N → Links N
  | [], L => L
  | d :: ds, L => hang par ds ((par d).elim L fun p => L.push p d)

/-- The children of a node, the one hung up last first. -/
def kidsOf (par : N → Option N) (ds : List N) (p : N) : List N :=
  (ds.filter fun d => par d = some p).reverse

theorem mem_kidsOf {par : N → Option N} {ds : List N} {p d : N} :
    d ∈ kidsOf par ds p ↔ d ∈ ds ∧ par d = some p := by
  simp [kidsOf]

theorem kidsOf_nodup {par : N → Option N} {ds : List N} (h : ds.Nodup) (p : N) :
    (kidsOf par ds p).Nodup := List.nodup_reverse.2 (h.filter _)

theorem kidsOf_cons (par : N → Option N) (d : N) (ds : List N) (p : N) :
    kidsOf par (d :: ds) p = kidsOf par ds p ++ if par d = some p then [d] else [] := by
  unfold kidsOf
  by_cases h : par d = some p
  · rw [List.filter_cons_of_pos (by simpa using h), if_pos h, List.reverse_cons]
  · rw [List.filter_cons_of_neg (by simpa using h), if_neg h, List.append_nil]

variable {par : N → Option N} {ds : List N} {L : Links N}

theorem hang_other {d : N} (h : d ∉ ds) :
    (L.hang par ds).sibling d = L.sibling d ∧ (L.hang par ds).parent d = L.parent d := by
  induction ds generalizing L with
  | nil => exact ⟨rfl, rfl⟩
  | cons e ds ih =>
    obtain ⟨hne, hds⟩ := not_or.1 (List.mem_cons.not.1 h)
    obtain ⟨h1, h2⟩ := ih (L := (par e).elim L fun p => L.push p e) hds
    cases hp : par e with
    | none =>
      rw [hp] at h1 h2
      unfold Links.hang
      rw [hp]
      exact ⟨h1, h2⟩
    | some p =>
      rw [hp] at h1 h2
      unfold Links.hang
      rw [hp]
      refine ⟨h1.trans ?_, h2.trans ?_⟩
      · exact Function.update_of_ne hne ..
      · exact Function.update_of_ne hne ..

/-- **The lists after nodes were hung up**: the new children in front of the old ones. -/
theorem hang_spec (hnodup : ds.Nodup) (p : N) :
    Seg (L.hang par ds).sibling ((L.hang par ds).child p) (kidsOf par ds p) (L.child p) := by
  induction ds generalizing L with
  | nil => exact rfl
  | cons d ds ih =>
    obtain ⟨hd, hds⟩ := List.nodup_cons.1 hnodup
    rw [kidsOf_cons]
    cases hpar : par d with
    | none =>
      rw [if_neg (Option.some_ne_none p).symm, List.append_nil]
      unfold Links.hang
      rw [hpar]
      exact ih hds
    | some q =>
      have hrest := ih (L := L.push q d) hds
      unfold Links.hang
      rw [hpar]
      by_cases hq : q = p
      · subst hq
        rw [if_pos rfl]
        refine Seg.append hrest ?_
        have hsib : ((L.push q d).hang par ds).sibling d = L.child q := by
          rw [(hang_other hd).1]
          exact Function.update_self ..
        exact ⟨Function.update_self .., hsib⟩
      · rw [if_neg fun hc => hq (Option.some.inj hc), List.append_nil]
        have hchild : (L.push q d).child p = L.child p := Function.update_of_ne (Ne.symm hq) ..
        rw [hchild] at hrest
        exact hrest

theorem hang_parent (hnodup : ds.Nodup) {d : N} (hd : d ∈ ds) {p : N} (hp : par d = some p) :
    (L.hang par ds).parent d = some p := by
  induction ds generalizing L with
  | nil => cases hd
  | cons e ds ih =>
    obtain ⟨he, hds⟩ := List.nodup_cons.1 hnodup
    unfold Links.hang
    rcases List.mem_cons.1 hd with rfl | hmem
    · rw [hp, Option.elim_some, (hang_other he).2]
      exact Function.update_self ..
    · exact ih hds hmem

/-- Only nodes that are hung up get a sibling or a parent. -/
theorem hang_root {d : N} (hd : par d = none) :
    (L.hang par ds).sibling d = L.sibling d ∧ (L.hang par ds).parent d = L.parent d := by
  induction ds generalizing L with
  | nil => exact ⟨rfl, rfl⟩
  | cons e ds ih =>
    unfold Links.hang
    cases hp : par e with
    | none => exact ih
    | some p =>
      have hne : d ≠ e := fun hc => Option.some_ne_none p (hp.symm.trans (hc ▸ hd))
      exact ⟨ih.1.trans (Function.update_of_ne hne ..), ih.2.trans (Function.update_of_ne hne ..)⟩

/-- The first child is a node that was hung up, or the one there was. -/
theorem hang_child {p c : N} (h : (L.hang par ds).child p = some c) :
    L.child p = some c ∨ c ∈ ds ∧ par c = some p := by
  induction ds generalizing L with
  | nil => exact .inl h
  | cons e ds ih =>
    unfold Links.hang at h
    rcases ih h with hold | ⟨hmem, hc⟩
    · cases hp : par e with
      | none =>
        rw [hp] at hold
        exact .inl hold
      | some q =>
        rw [hp] at hold
        by_cases hq : p = q
        · subst hq
          have hnew : (L.push p e).child p = some e := Function.update_self ..
          obtain rfl : e = c := Option.some.inj (hnew.symm.trans hold)
          exact .inr ⟨List.mem_cons_self .., hp⟩
        · have hkeep : (L.push q e).child p = L.child p := Function.update_of_ne hq ..
          exact .inl (hkeep.symm.trans hold)
    · exact .inr ⟨List.mem_cons_of_mem _ hmem, hc⟩

/-! ### The walk -/

/-- Where the walk goes from a node it is done with. -/
def Links.next (L : Links N) (d : N) : Option N := L.sibling d <|> L.parent d

variable [DecidableEq S] (L) (new found : S)

/-- One round of the walk, at a node or at its end. -/
def walk : Option N × (N → S) → Option (Option N × (N → S))
  | (none, _) => none
  | (some d, st) =>
      let st := Function.update st d found
      let c := L.child d
      some (if c.any fun c => st c = new then c else L.next d, st)

theorem walk_some (d : N) (st : N → S) :
    walk L new found (some d, st) =
      some (if (L.child d).any fun c => Function.update st d found c = new then L.child d
        else L.next d, Function.update st d found) := rfl

/-- A node is in the tree below another one. -/
def Below (kids : N → List N) (p x : N) : Prop := ReflTransGen (fun a b => b ∈ kids a) p x

/-- The lists of a forest are hung up. -/
structure Hung (kids : N → List N) : Prop where
  seg : ∀ p, Seg L.sibling (L.child p) (kids p) none
  parent : ∀ p, ∀ k ∈ kids p, L.parent k = some p
  nodup : ∀ p, (kids p).Nodup

variable {L} {kids : N → List N} {rank : N → ℕ}

omit [DecidableEq N] in
theorem Below.rank_le (hrank : ∀ p, ∀ k ∈ kids p, rank p < rank k) {p x : N}
    (h : Below kids p x) : rank p ≤ rank x := by
  induction h with
  | refl => exact le_rfl
  | tail _ hk ih => exact ih.trans (hrank _ _ hk).le

/-- Children of one node have no tree in common. -/
theorem Hung.disjoint (h : Hung L kids) (hrank : ∀ p, ∀ k ∈ kids p, rank p < rank k) {p k k' x : N}
    (hk : k ∈ kids p) (hk' : k' ∈ kids p) (hx : Below kids k x) (hx' : Below kids k' x) : k = k' := by
  -- one of two children with a node in common would be below the other, and below `p`
  have hbelow : ∀ {k k' : N}, k ∈ kids p → k' ∈ kids p → Below kids k k' → k = k' := by
    intro k k' hk hk' hb
    rcases ReflTransGen.cases_tail hb with heq | ⟨q, hq, hmem⟩
    · exact heq.symm
    · have hqp : q = p := Option.some.inj ((h.parent q k' hmem).symm.trans (h.parent p k' hk'))
      have hle := Below.rank_le hrank hq
      have hlt := hrank p k hk
      rw [hqp] at hle
      omega
  have huniq : Relator.RightUnique (Function.swap fun a b => b ∈ kids a) := fun a b c hb hc =>
    Option.some.inj ((h.parent b a hb).symm.trans (h.parent c a hc))
  have h1 : ReflTransGen (Function.swap fun a b => b ∈ kids a) x k := reflTransGen_swap.2 hx
  have h2 : ReflTransGen (Function.swap fun a b => b ∈ kids a) x k' := reflTransGen_swap.2 hx'
  rcases ReflTransGen.total_of_right_unique huniq h1 h2 with hc | hc
  · exact (hbelow hk' hk (reflTransGen_swap.1 hc)).symm
  · exact hbelow hk hk' (reflTransGen_swap.1 hc)

/-- What the walk over some trees does to the marks. -/
def Marked (A : N → Prop) (st st' : N → S) : Prop :=
  (∀ x, A x → st' x = found) ∧ ∀ x, ¬A x → st' x = st x

omit [DecidableEq S] in
/-- With the top of a tree, the trees of its children are the whole tree. -/
theorem Marked.top {d : N} {st st' : N → S}
    (hmark : Marked found (fun y => ∃ k ∈ kids d, Below kids k y) (Function.update st d found) st') :
    Marked found (Below kids d) st (Function.update st' d found) := by
  obtain ⟨hmark, hkeep⟩ := hmark
  refine ⟨fun x hx => ?_, fun x hx => ?_⟩
  · by_cases hxd : x = d
    · rw [hxd]
      exact Function.update_self ..
    · rw [Function.update_of_ne hxd]
      rcases ReflTransGen.cases_head hx with heq | ⟨j, hj, hjx⟩
      · exact absurd heq.symm hxd
      · exact hmark x ⟨j, hj, hjx⟩
  · have hxd : x ≠ d := by
      rintro rfl
      exact hx ReflTransGen.refl
    rw [Function.update_of_ne hxd, hkeep x fun ⟨j, hj, hjx⟩ => hx (ReflTransGen.head hj hjx),
      Function.update_of_ne hxd]

/-- A node without children is a tree. -/
theorem walk_leaf (h : Hung L kids) {d : N} (hnone : kids d = []) (st : N → S) :
    ∃ st', Reaches (walk L new found) (some d, st) (L.next d, st') ∧
      Marked found (Below kids d) st st' := by
  have hchild : L.child d = none := by
    have hseg := h.seg d
    rw [hnone] at hseg
    exact hseg
  have htop : Marked found (Below kids d) st (Function.update (Function.update st d found) d found) := by
    refine Marked.top found ⟨fun y hy => ?_, fun _ _ => rfl⟩
    obtain ⟨k, hk, -⟩ := hy
    rw [hnone] at hk
    cases hk
  rw [Function.update_idem] at htop
  refine ⟨Function.update st d found, ReflTransGen.single ?_, htop⟩
  show walk L new found (some d, st) = _
  rw [walk_some, hchild]
  rfl

/-- The first round at a node goes down to its children. -/
theorem walk_down {d k : N} {st : N → S} (hchild : L.child d = some k) (hkd : k ≠ d) (hk : st k = new) :
    walk L new found (some d, st) = some (some k, Function.update st d found) := by
  have hnew : (some k).any (fun c => decide (Function.update st d found c = new)) = true := by
    simp only [Option.any_some, decide_eq_true_eq]
    rw [Function.update_of_ne hkd]
    exact hk
  rw [walk_some, hchild, if_pos hnew]

/-- Once these are marked, the walk goes on. -/
theorem walk_up {d k : N} {st : N → S} (hchild : L.child d = some k) (hkd : k ≠ d) (hk : st k ≠ new) :
    walk L new found (some d, st) = some (L.next d, Function.update st d found) := by
  have hold : ¬(some k).any (fun c => decide (Function.update st d found c = new)) = true := by
    simp only [Option.any_some, decide_eq_true_eq]
    rw [Function.update_of_ne hkd]
    exact hk
  rw [walk_some, hchild, if_neg hold]

/-- **The walk over siblings.**  Where it marks the tree of each child of a node, the walk from one child on
marks the trees of those that follow, and comes up to the node. -/
theorem walk_siblings (h : Hung L kids) (hrank : ∀ p, ∀ k ∈ kids p, rank p < rank k) {d : N}
    (htree : ∀ k ∈ kids d, ∀ st : N → S, (∀ x, Below kids k x → x ≠ k → st x = new) →
      ∃ st', Reaches (walk L new found) (some k, st) (L.next k, st') ∧ Marked found (Below kids k) st st')
    (ks : List N) (hmem : ∀ k ∈ ks, k ∈ kids d) (hnodup : ks.Nodup) (x : Option N)
    (hx : Seg L.sibling x ks none) (st : N → S) (hst : ∀ k ∈ ks, ∀ y, Below kids k y → st y = new) :
    ∃ st', Reaches (walk L new found) (x <|> some d, st) (some d, st') ∧
      Marked found (fun y => ∃ k ∈ ks, Below kids k y) st st' := by
  induction ks generalizing x st with
  | nil =>
    obtain rfl : x = none := hx
    exact ⟨st, ReflTransGen.refl, fun y hy => by simp at hy, fun _ _ => rfl⟩
  | cons k ks ih =>
    obtain ⟨rfl, hseg⟩ := hx
    have hk := hmem k (List.mem_cons_self ..)
    have hks : ∀ j ∈ ks, j ∈ kids d := fun j hj => hmem j (List.mem_cons_of_mem _ hj)
    obtain ⟨hkks, hnodup⟩ := List.nodup_cons.1 hnodup
    obtain ⟨st₁, hwalk, hmark, hkeep⟩ := htree k hk st fun y hy _ =>
      hst k (List.mem_cons_self ..) y hy
    have hnext : L.next k = (L.sibling k <|> some d) := by
      unfold Links.next
      rw [h.parent d k hk]
    rw [hnext] at hwalk
    have happart : ∀ j ∈ ks, ∀ y, Below kids j y → ¬Below kids k y := fun j hj y hy hy' =>
      hkks (h.disjoint hrank hk (hks j hj) hy' hy ▸ hj)
    obtain ⟨st₂, hrest, hmark₂, hkeep₂⟩ := ih hks hnodup _ hseg st₁ fun j hj y hy =>
      (hkeep y (happart j hj y hy)).trans (hst j (List.mem_cons_of_mem _ hj) y hy)
    refine ⟨st₂, hwalk.trans hrest, fun y hy => ?_, fun y hy => ?_⟩
    · by_cases hy₂ : ∃ j ∈ ks, Below kids j y
      · exact hmark₂ y hy₂
      · obtain ⟨j, hj, hjy⟩ := hy
        rcases List.mem_cons.1 hj with rfl | hj
        · exact (hkeep₂ y hy₂).trans (hmark y hjy)
        · exact absurd ⟨j, hj, hjy⟩ hy₂
    · have hy₂ : ¬∃ j ∈ ks, Below kids j y := fun ⟨j, hj, hjy⟩ =>
        hy ⟨j, List.mem_cons_of_mem _ hj, hjy⟩
      exact (hkeep₂ y hy₂).trans (hkeep y fun hky => hy ⟨k, List.mem_cons_self .., hky⟩)

/-- **The walk marks a tree.**  From its top, where nothing below is marked, the walk comes to the next
node, with the tree marked. -/
theorem walk_spec (h : Hung L kids) (hrank : ∀ p, ∀ k ∈ kids p, rank p < rank k) {R : ℕ}
    (hR : ∀ p, ∀ k ∈ kids p, rank k ≤ R) (hne : found ≠ new) (d : N) (st : N → S)
    (hst : ∀ x, Below kids d x → x ≠ d → st x = new) :
    ∃ st', Reaches (walk L new found) (some d, st) (L.next d, st') ∧
      Marked found (Below kids d) st st' := by
  induction hn : R - rank d using Nat.strong_induction_on generalizing d st with
  | _ n ih =>
    have htree : ∀ k ∈ kids d, ∀ st : N → S, (∀ x, Below kids k x → x ≠ k → st x = new) →
        ∃ st', Reaches (walk L new found) (some k, st) (L.next k, st') ∧
          Marked found (Below kids k) st st' := fun k hk st hst => by
      have hlt := hrank d k hk
      have hle := hR d k hk
      exact ih _ (by omega) k st hst rfl
    cases hlist : kids d with
    | nil => exact walk_leaf new found h hlist st
    | cons k ks =>
      have hk : k ∈ kids d := hlist ▸ List.mem_cons_self ..
      have hchild : L.child d = some k := by
        have hseg := h.seg d
        rw [hlist] at hseg
        exact hseg.1
      have hkd : k ≠ d := fun hc => lt_irrefl _ (hc ▸ hrank d k hk)
      have hdown := walk_down new found hchild hkd (hst k (ReflTransGen.single hk) hkd)
      obtain ⟨st₂, hwalk, hmark⟩ := walk_siblings new found h hrank htree (kids d) (fun _ hj => hj)
        (h.nodup d) _ (h.seg d) (Function.update st d found) fun j hj y hy => by
          have hyd : y ≠ d := by
            rintro rfl
            have hle := Below.rank_le hrank hy
            have hlt := hrank y j hj
            omega
          rw [Function.update_of_ne hyd]
          exact hst y (ReflTransGen.head hj hy) hyd
      rw [hchild] at hwalk
      have hmarked : st₂ k ≠ new := by
        rw [hmark.1 k ⟨k, hk, ReflTransGen.refl⟩]
        exact hne
      have hup := walk_up new found hchild hkd hmarked
      have hfirst : Reaches (walk L new found) (some d, st) (some k, Function.update st d found) :=
        ReflTransGen.single hdown
      exact ⟨Function.update st₂ d found, (hfirst.trans hwalk).trans (ReflTransGen.single hup),
        Marked.top found hmark⟩

end

end ChildSibling
