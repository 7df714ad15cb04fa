import Mathlib.Order.Defs.PartialOrder

/-!
# Runs of a system

A system that takes one step for each call made to it, and may be started in several states.  `Reach`
holds of the states that a run comes through whose calls all satisfy a guard in the state they are
made in; `Reach.invariant` is the induction rule.
-/

namespace Runs

variable {σ α : Type*} {step : α → σ → σ} {ok : α → σ → Prop} {init : σ → Prop} {s : σ}

/-- The states reached by calls that satisfy the guard. -/
inductive Reach (step : α → σ → σ) (ok : α → σ → Prop) (init : σ → Prop) : σ → Prop
  | start {s : σ} (h : init s) : Reach step ok init s
  | call {s : σ} (a : α) (h : Reach step ok init s) (hok : ok a s) : Reach step ok init (step a s)

/-- **The invariant rule.**  What holds at the start and is kept by every call that satisfies the
guard holds in every state reached. -/
theorem Reach.invariant {Inv : σ → Prop} (hstart : ∀ s, init s → Inv s)
    (hstep : ∀ a s, Inv s → ok a s → Inv (step a s)) (h : Reach step ok init s) : Inv s := by
  induction h with
  | start h => exact hstart _ h
  | call a _ hok ih => exact hstep a _ ih hok

end Runs
