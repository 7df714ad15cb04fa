import Mathlib.Data.List.Basic
import Mathlib.Logic.Function.Basic

/-!
# A log of writes

A log is a list of writes, the oldest first.  Replaying it over a store makes every write in turn.

* `replay_apply` — afterwards an address holds the last write to it, or what it held before;
* `replay_eq_self_iff` — the store is unchanged exactly when it holds all last writes already.
-/

namespace WriteLog

variable {A V : Type} [DecidableEq A]

/-- The writes of a log, made in order. -/
def replay (log : List (A × V)) (d : A → V) : A → V :=
  log.foldl (fun d w => Function.update d w.1 w.2) d

/-- The last write to an address. -/
def lastWrite : List (A × V) → A → Option V
  | [], _ => none
  | w :: log, a => lastWrite log a <|> if w.1 = a then some w.2 else none

/-- **A replay leaves the last write at every address**, and the old value where there is none. -/
theorem replay_apply (log : List (A × V)) (d : A → V) (a : A) :
    replay log d a = (lastWrite log a).getD (d a) := by
  induction log generalizing d with
  | nil => rfl
  | cons w log ih =>
    show replay log (Function.update d w.1 w.2) a = _
    rw [ih, lastWrite]
    cases lastWrite log a with
    | some x => rfl
    | none =>
      by_cases h : w.1 = a
      · subst h
        simp
      · simp [h, Function.update_of_ne (Ne.symm h)]

/-- The last write of two logs in a row is the last of the second, if it has one. -/
theorem lastWrite_append (log log' : List (A × V)) (a : A) :
    lastWrite (log ++ log') a = (lastWrite log' a <|> lastWrite log a) := by
  induction log with
  | nil => simp [lastWrite]
  | cons w log ih =>
    show (lastWrite (log ++ log') a <|> _) = _
    rw [ih, lastWrite]
    cases lastWrite log' a <;> rfl

/-- The last write to an address is one of the log. -/
theorem mem_of_lastWrite {log : List (A × V)} {a : A} {x : V} (h : lastWrite log a = some x) :
    (a, x) ∈ log := by
  induction log with
  | nil => cases h
  | cons w log ih =>
    rw [lastWrite] at h
    cases hx : lastWrite log a with
    | some y =>
      rw [hx] at h
      cases h
      exact List.mem_cons_of_mem _ (ih hx)
    | none =>
      rw [hx] at h
      by_cases hw : w.1 = a
      · subst hw
        simp only [if_true] at h
        cases h
        exact List.mem_cons_self
      · simp [hw] at h

/-- An address that is written to has a last write. -/
theorem exists_lastWrite {log : List (A × V)} {w : A × V} (h : w ∈ log) :
    ∃ x, lastWrite log w.1 = some x := by
  obtain ⟨log₁, log₂, rfl⟩ := List.append_of_mem h
  rw [lastWrite_append, lastWrite]
  cases hx : lastWrite log₂ w.1 with
  | some x => exact ⟨x, rfl⟩
  | none => exact ⟨w.2, by simp⟩

/-- **A replay changes nothing exactly when every last write is there already.** -/
theorem replay_eq_self_iff (log : List (A × V)) (d : A → V) :
    replay log d = d ↔ ∀ a x, lastWrite log a = some x → d a = x := by
  constructor
  · intro h a x hx
    have := replay_apply log d a
    rw [h, hx] at this
    exact this
  · intro h
    funext a
    rw [replay_apply]
    cases hx : lastWrite log a with
    | some x => exact (h a x hx).symm
    | none => rfl

end WriteLog
