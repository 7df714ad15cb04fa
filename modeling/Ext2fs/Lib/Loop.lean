import Mathlib.Computability.StateTransition

/-!
# Loops and what they visit

A loop is a function from a state to the state at the head of the next round, or to nothing when the
round ends it; `StateTransition` has the states it reaches and whether it ends.  Added here are the
rules for reasoning about every state that is visited.

* `visits_of_invariant` — the invariant rule;
* `ends_of_measure` — a loop ends when something grows smaller in every round;
* `runFor` — a loop with a bound on its rounds;
* `Lockstep` — two loops whose rounds match as long as the second one is in a good state;
* `Lockstep.safe_iff` — the first loop ends and is safe everywhere exactly when the second one ends
  and is good everywhere.
-/

namespace Loop

open StateTransition Relation

variable {σ τ : Type*} {f : σ → Option σ} {g : τ → Option τ} {s s' : σ} {t t' : τ}

theorem Visits.refl (f : σ → Option σ) (s : σ) : Reaches f s s := ReflTransGen.refl

theorem Visits.next (h : Reaches f s s') {u : σ} (hu : f s' = some u) : Reaches f s u :=
  ReflTransGen.tail h hu

/-- **The invariant rule** for the states a loop visits. -/
theorem visits_of_invariant {Inv : σ → Prop} (hstart : Inv s)
    (hstep : ∀ u v, Inv u → f u = some v → Inv v) (h : Reaches f s s') : Inv s' := by
  induction h with
  | refl => exact hstart
  | tail _ hv ih => exact hstep _ _ ih hv

/-- A loop ends where the state after one round leads to an end. -/
theorem ends_of_next (h : f s = some s') (hend : (eval f s').Dom) : (eval f s).Dom := by
  have hreach : Reaches f s s' := ReflTransGen.single h
  rw [reaches_eval hreach]
  exact hend

theorem ends_of_none (h : f s = none) : (eval f s).Dom :=
  Part.dom_iff_mem.2 ⟨s, mem_eval.2 ⟨ReflTransGen.refl, h⟩⟩

/-- **A loop ends** when every round that starts in a state it visits makes a number smaller. -/
theorem ends_of_measure (m : σ → ℕ)
    (hstep : ∀ u v, Reaches f s u → f u = some v → m v < m u) : (eval f s).Dom := by
  induction hn : m s using Nat.strong_induction_on generalizing s with
  | _ n ih =>
    cases hs : f s with
    | none => exact ends_of_none hs
    | some s' =>
      apply ends_of_next hs
      apply ih (m s') (hn ▸ hstep s s' ReflTransGen.refl hs) _ rfl
      intro u v hu hv
      exact hstep u v (ReflTransGen.head hs hu) hv

/-- A loop with a bound on its rounds; nothing when they do not suffice. -/
def runFor (f : σ → Option σ) : ℕ → σ → Option σ
  | 0, _ => none
  | n + 1, s => (f s).elim (some s) (runFor f n)

/-- **Enough rounds** bring a loop to the state it ends in. -/
theorem runFor_of_reaches (h : Reaches f s s') (hend : f s' = none) :
    ∃ N, ∀ n, N ≤ n → runFor f n s = some s' := by
  induction h using ReflTransGen.head_induction_on with
  | refl =>
    refine ⟨1, fun n hn => ?_⟩
    obtain ⟨m, rfl⟩ := Nat.exists_eq_succ_of_ne_zero (Nat.one_le_iff_ne_zero.1 hn)
    unfold runFor
    rw [hend]
    rfl
  | @head u v huv _ ih =>
    obtain ⟨N, hN⟩ := ih
    refine ⟨N + 1, fun n hn => ?_⟩
    obtain ⟨m, rfl⟩ := Nat.exists_eq_succ_of_ne_zero (Nat.ne_of_gt (Nat.lt_of_lt_of_le N.succ_pos hn))
    unfold runFor
    rw [show f u = some v from huv]
    exact hN m (by omega)

/-- The rounds of two loops match as long as the second one is in a good state. -/
def Lockstep (f : σ → Option σ) (g : τ → Option τ) (R : σ → τ → Prop) (Good : τ → Prop) : Prop :=
  ∀ s t, R s t → Good t → Option.Rel R (f s) (g t)

variable {R : σ → τ → Prop} {Good : τ → Prop} {Safe : σ → Prop}

/-- Every state of the first loop has its counterpart while the second one is good everywhere. -/
theorem Lockstep.forth (h : Lockstep f g R Good) (hR : R s t)
    (hgood : ∀ t', Reaches g t t' → Good t') (hs : Reaches f s s') :
    ∃ t', Reaches g t t' ∧ R s' t' := by
  induction hs with
  | refl => exact ⟨t, ReflTransGen.refl, hR⟩
  | @tail u v _ huv ih =>
    obtain ⟨w, hw, hRw⟩ := ih
    have hrel := h u w hRw (hgood w hw)
    rw [show f u = some v from huv] at hrel
    cases hgw : g w with
    | none => rw [hgw] at hrel; cases hrel
    | some w' =>
      rw [hgw] at hrel
      cases hrel with
      | some hR' => exact ⟨w', hw.tail hgw, hR'⟩

/-- Every state of the second loop has its counterpart while those that have one are good. -/
theorem Lockstep.back (h : Lockstep f g R Good) (hR : R s t)
    (hgood : ∀ s' t', Reaches f s s' → Reaches g t t' → R s' t' → Good t') (ht : Reaches g t t') :
    ∃ s', Reaches f s s' ∧ R s' t' := by
  induction ht with
  | refl => exact ⟨s, ReflTransGen.refl, hR⟩
  | @tail v w hv hvw ih =>
    obtain ⟨u, hu, hRu⟩ := ih
    have hrel := h u v hRu (hgood u v hu hv hRu)
    rw [show g v = some w from hvw] at hrel
    cases hfu : f u with
    | none => rw [hfu] at hrel; cases hrel
    | some u' =>
      rw [hfu] at hrel
      cases hrel with
      | some hR' => exact ⟨u', hu.tail hfu, hR'⟩

/-- The two loops end together while the second one is good everywhere. -/
theorem Lockstep.ends_iff (h : Lockstep f g R Good) (hR : R s t)
    (hgood : ∀ t', Reaches g t t' → Good t') : (eval f s).Dom ↔ (eval g t).Dom := by
  have hresp : Respects g f fun t' s' => R s' t' ∧ Reaches g t t' := by
    rintro u v ⟨hRu, hu⟩
    have hrel := h v u hRu (hgood u hu)
    cases hgu : g u with
    | none =>
      rw [hgu] at hrel
      cases hfv : f v with
      | none => rfl
      | some _ => rw [hfv] at hrel; cases hrel
    | some u' =>
      rw [hgu] at hrel
      cases hfv : f v with
      | none => rw [hfv] at hrel; cases hrel
      | some v' =>
        rw [hfv] at hrel
        cases hrel with
        | some hR' => exact ⟨v', ⟨hR', hu.tail hgu⟩, TransGen.single hfv⟩
  exact tr_eval_dom hresp ⟨hR, ReflTransGen.refl⟩

/-- **Safety of one loop as a condition on another.**  Where a good state is safe, and a state whose
round and next round are safe is good, the first loop ends and is safe everywhere exactly when the
second one ends and is good everywhere. -/
theorem Lockstep.safe_iff (h : Lockstep f g R Good) (hR : R s t)
    (hsafe : ∀ s t, R s t → Good t → Safe s)
    (hgood : ∀ s t, R s t → Safe s → (∀ s', f s = some s' → Safe s') → Good t) :
    ((eval f s).Dom ∧ ∀ s', Reaches f s s' → Safe s') ↔
      (eval g t).Dom ∧ ∀ t', Reaches g t t' → Good t' := by
  constructor
  · rintro ⟨hdom, hall⟩
    have good_of : ∀ s' t', Reaches f s s' → R s' t' → Good t' := fun s' t' hs' hR' =>
      hgood s' t' hR' (hall s' hs') fun u hu => hall u (hs'.tail hu)
    have hallgood : ∀ t', Reaches g t t' → Good t' := fun t' ht => by
      obtain ⟨s', hs', hR'⟩ := h.back hR (fun s' t' hs' _ => good_of s' t' hs') ht
      exact good_of s' t' hs' hR'
    exact ⟨(h.ends_iff hR hallgood).1 hdom, hallgood⟩
  · rintro ⟨hdom, hall⟩
    refine ⟨(h.ends_iff hR hall).2 hdom, fun s' hs' => ?_⟩
    obtain ⟨t', ht', hR'⟩ := h.forth hR hall hs'
    exact hsafe s' t' hR' (hall t' ht')

end Loop
