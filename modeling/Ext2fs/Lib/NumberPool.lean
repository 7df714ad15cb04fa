import Mathlib.Data.Set.Insert
import Mathlib.Data.List.Basic

/-!
# A pool of numbers

Numbers are taken from a pool and given back to it.  What happens to the numbers is a history of events,
which is legal if only free numbers are taken and only taken ones are given back.

* `Legal.exclusive` — **in a legal history no number is taken twice** unless it was given back in
  between;
* `Simulates.run_legal` — a system each of whose steps is an event of the pool, or none, has legal
  histories only;
* `run_eq_none_iff` — where a run fails.
-/

namespace NumberPool

variable {ν σ α : Type*}

/-- What happens to a number. -/
inductive Event (ν : Type*) where
  | take (n : ν)
  | give (n : ν)
  deriving DecidableEq, Repr

namespace Event

/-- The event may happen while the numbers in `free` are free. -/
def Allowed (free : Set ν) : Event ν → Prop
  | take n => n ∈ free
  | give n => n ∉ free

/-- The numbers that are free after the event. -/
def after (free : Set ν) : Event ν → Set ν
  | take n => free \ {n}
  | give n => insert n free

end Event

open Event

/-- The numbers that are free after a history. -/
def after (free : Set ν) (h : List (Event ν)) : Set ν := h.foldl Event.after free

/-- Every event of the history may happen when it comes. -/
def Legal : Set ν → List (Event ν) → Prop
  | _, [] => True
  | free, e :: h => e.Allowed free ∧ Legal (e.after free) h

/-- Between two takes of a number there is a give of it. -/
def Exclusive (h : List (Event ν)) : Prop :=
  ∀ n before between behind, h = before ++ take n :: (between ++ take n :: behind) → give n ∈ between

section

variable {free : Set ν} {h h' : List (Event ν)} {n : ν}

theorem after_append (free : Set ν) (h h' : List (Event ν)) :
    after free (h ++ h') = after (after free h) h' :=
  List.foldl_append

theorem legal_append : Legal free (h ++ h') ↔ Legal free h ∧ Legal (after free h) h' := by
  induction h generalizing free with
  | nil => exact (and_iff_right trivial).symm
  | cons e h ih =>
    rw [List.cons_append, Legal, Legal, ih, and_assoc]
    rfl

/-- A number that is in use stays in use until it is given back. -/
theorem not_mem_after (hn : n ∉ free) (hgive : give n ∉ h) : n ∉ after free h := by
  induction h generalizing free with
  | nil => exact hn
  | cons e h ih =>
    rw [List.mem_cons, not_or] at hgive
    apply ih _ hgive.2
    cases e with
    | take m => exact fun hmem => hn hmem.1
    | give m =>
      intro hmem
      rcases hmem with rfl | hmem
      · exact hgive.1 rfl
      · exact hn hmem

/-- A number that is in use is not taken before it is given back. -/
theorem Legal.take_not_mem (hl : Legal free h) (hn : n ∉ free) (hgive : give n ∉ h) : take n ∉ h := by
  intro hmem
  obtain ⟨before, behind, rfl⟩ := List.append_of_mem hmem
  rw [legal_append] at hl
  have hbefore : give n ∉ before := fun hin => hgive (List.mem_append_left _ hin)
  exact not_mem_after hn hbefore hl.2.1

/-- **No number is taken twice** without having been given back. -/
theorem Legal.exclusive (hl : Legal free h) : Exclusive h := by
  intro n before between behind heq
  rw [heq, legal_append] at hl
  obtain ⟨-, -, hrest⟩ := hl
  rw [legal_append] at hrest
  by_contra hgive
  have htaken : n ∉ (take n).after (after free before) := fun hmem => hmem.2 rfl
  exact not_mem_after htaken hgive hrest.2.1

end

/-! ### Systems over a pool -/

/-- What a step does to the free numbers. -/
def Moves (free free' : Set ν) : Option (Event ν) → Prop
  | none => free' = free
  | some e => e.Allowed free ∧ free' = e.after free

/-- The steps of a run, one after the other, with the history of their events; there is no result when
a step has none. -/
def run (step : α → σ → Option (σ × Option (Event ν))) : List α → σ → Option (σ × List (Event ν))
  | [], s => some (s, [])
  | a :: as, s =>
      (step a s).bind fun r => (run step as r.1).map fun t => (t.1, r.2.toList ++ t.2)

/-- Every step that is `ok` keeps the invariant and moves the pool. -/
def Simulates (step : α → σ → Option (σ × Option (Event ν))) (ok : α → Prop) (Inv : σ → Prop)
    (free : σ → Set ν) : Prop :=
  ∀ a s s' e, Inv s → ok a → step a s = some (s', e) → Inv s' ∧ Moves (free s) (free s') e

theorem run_cons {step : α → σ → Option (σ × Option (Event ν))} {a : α} {as : List α} {s t : σ}
    {h : List (Event ν)} (hrun : run step (a :: as) s = some (t, h)) :
    ∃ s' e h', step a s = some (s', e) ∧ run step as s' = some (t, h') ∧ h = e.toList ++ h' := by
  obtain ⟨⟨s', e⟩, hstep, hrest⟩ := Option.bind_eq_some_iff.1 hrun
  obtain ⟨⟨t', h'⟩, hrun', heq⟩ := Option.map_eq_some_iff.1 hrest
  cases heq
  exact ⟨s', e, h', hstep, hrun', rfl⟩

/-- **The history of a run is legal**, and leads from the numbers free at its start to those free at its
end. -/
theorem Simulates.run_legal {step : α → σ → Option (σ × Option (Event ν))} {ok : α → Prop}
    {Inv : σ → Prop} {free : σ → Set ν} (hsim : Simulates step ok Inv free) {as : List α} {s t : σ}
    {h : List (Event ν)} (hs : Inv s) (hok : ∀ a ∈ as, ok a) (hrun : run step as s = some (t, h)) :
    Inv t ∧ Legal (free s) h ∧ free t = after (free s) h := by
  induction as generalizing s h with
  | nil =>
    cases hrun
    exact ⟨hs, trivial, rfl⟩
  | cons a as ih =>
    obtain ⟨s', e, h', hstep, hrest, rfl⟩ := run_cons hrun
    obtain ⟨hinv, hmove⟩ := hsim a s s' e hs (hok a (List.mem_cons_self ..)) hstep
    obtain ⟨ht, hlegal, hfree⟩ := ih hinv (fun b hb => hok b (List.mem_cons_of_mem a hb)) hrest
    refine ⟨ht, ?_⟩
    cases e with
    | none =>
      rw [show free s' = free s from hmove] at hlegal hfree
      exact ⟨hlegal, hfree⟩
    | some e =>
      rw [hmove.2] at hlegal hfree
      exact ⟨⟨hmove.1, hlegal⟩, hfree⟩

/-- Where a step without an event keeps `f`, so does a run without one. -/
theorem Simulates.run_quiet {step : α → σ → Option (σ × Option (Event ν))} {ok : α → Prop}
    {Inv : σ → Prop} {free : σ → Set ν} (hsim : Simulates step ok Inv free) {β : Type*} {f : σ → β}
    (hquiet : ∀ a s s', Inv s → ok a → step a s = some (s', none) → f s' = f s) {as : List α}
    {s t : σ} (hs : Inv s) (hok : ∀ a ∈ as, ok a) (hrun : run step as s = some (t, [])) : f t = f s := by
  induction as generalizing s with
  | nil =>
    cases hrun
    rfl
  | cons a as ih =>
    obtain ⟨s', e, h', hstep, hrest, heq⟩ := run_cons hrun
    have ha := hok a (List.mem_cons_self ..)
    cases e with
    | some e => cases heq
    | none =>
      obtain rfl : h' = [] := heq.symm
      have hinv := (hsim a s s' none hs ha hstep).1
      have hend := ih hinv (fun b hb => hok b (List.mem_cons_of_mem a hb)) hrest
      rw [hend, hquiet a s s' hs ha hstep]

/-- A run has no result exactly when one of its steps has none. -/
theorem run_eq_none_iff {step : α → σ → Option (σ × Option (Event ν))} {as : List α} {s : σ} :
    run step as s = none ↔ ∃ before a behind t h, as = before ++ a :: behind ∧
      run step before s = some (t, h) ∧ step a t = none := by
  induction as generalizing s with
  | nil => simp [run]
  | cons a as ih =>
    constructor
    · intro hnone
      cases hstep : step a s with
      | none => exact ⟨[], a, as, s, [], rfl, rfl, hstep⟩
      | some r =>
        have hrest : run step as r.1 = none := by
          simpa only [run, hstep, Option.bind_some, Option.map_eq_none_iff] using hnone
        obtain ⟨before, b, behind, t, h, rfl, hrun, hlast⟩ := ih.1 hrest
        refine ⟨a :: before, b, behind, t, r.2.toList ++ h, rfl, ?_, hlast⟩
        simp only [run, hstep, Option.bind_some, hrun, Option.map_some]
    · rintro ⟨before, b, behind, t, h, heq, hrun, hlast⟩
      cases before with
      | nil =>
        cases heq
        cases hrun
        simp only [run, hlast, Option.bind_none]
      | cons c before =>
        obtain ⟨rfl, has⟩ := List.cons_eq_cons.1 heq
        obtain ⟨s', e, h', hstep, hrest, -⟩ := run_cons hrun
        have hnone : run step as s' = none := ih.2 ⟨before, b, behind, t, h', has, hrest, hlast⟩
        simp only [run, hstep, Option.bind_some, hnone, Option.map_none]

end NumberPool
