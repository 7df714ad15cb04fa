import Mathlib.Data.List.Basic

/-!
# A mutex as one thread uses it

A program is its value and the operations on the mutex it makes on the way (`Locked`).  The rules:
a mutex is not taken while it is held, not released while it is free, and held where the program
asserts it.

* `after` — the state of the mutex after some operations, unless a rule was broken;
* `Disciplined` — no rule is broken between a call with the mutex free and its return, and the
  mutex is free then;
* `Ends` — the condition under which operations are disciplined; without it a rule is broken, so
  that conditions compose (`Ends.append`).
-/

namespace Mutex

/-- An operation on the mutex. -/
inductive Op where
  | lock | unlock | assertOwned
  deriving DecidableEq, Repr

/-- The state of the mutex, held or not, after an operation that breaks no rule. -/
def step : Bool → Op → Option Bool
  | false, .lock => some true
  | true, .unlock => some false
  | true, .assertOwned => some true
  | _, _ => none

/-- The state of the mutex after some operations, if they break no rule. -/
def after : Bool → List Op → Option Bool
  | held, [] => some held
  | held, op :: ops =>
      match step held op with
      | some held => after held ops
      | none => none

@[simp] theorem after_nil (held : Bool) : after held [] = some held := rfl

theorem after_append (held : Bool) (a b : List Op) :
    after held (a ++ b) = (after held a).bind fun h => after h b := by
  induction a generalizing held with
  | nil => rfl
  | cons op a ih =>
    rw [List.cons_append, after, after]
    cases step held op with
    | none => rfl
    | some h => exact ih h

/-- The operations are those of a call that is made and returns with the mutex free. -/
def Disciplined (ops : List Op) : Prop := after false ops = some false

instance (ops : List Op) : Decidable (Disciplined ops) :=
  inferInstanceAs (Decidable (after false ops = some false))

/-- From the given state, the operations lead to the free mutex if the condition holds, and break a
rule if not. -/
structure EndsFrom (held : Bool) (ops : List Op) (cond : Prop) : Prop where
  free : cond → after held ops = some false
  broken : ¬ cond → after held ops = none

/-- `EndsFrom` the free mutex. -/
abbrev Ends : List Op → Prop → Prop := EndsFrom false

section

variable {held : Bool} {a b : List Op} {c d : Prop}

theorem Ends.disciplined_iff (h : Ends a c) : Disciplined a ↔ c := by
  constructor
  · intro hd
    by_contra hc
    rw [Disciplined, h.broken hc] at hd
    exact absurd hd (by simp)
  · exact h.free

theorem EndsFrom.of_iff (h : EndsFrom held a c) (hcd : c ↔ d) : EndsFrom held a d :=
  ⟨fun hd => h.free (hcd.2 hd), fun hd => h.broken fun hc => hd (hcd.1 hc)⟩

/-- No operation at all. -/
theorem Ends.nil : Ends [] True := ⟨fun _ => rfl, fun h => absurd trivial h⟩

/-- One sequence of operations after the other. -/
theorem EndsFrom.append (ha : EndsFrom held a c) (hb : c → Ends b d) :
    EndsFrom held (a ++ b) (c ∧ d) := by
  constructor
  · rintro ⟨hc, hd⟩
    rw [after_append, ha.free hc]
    exact (hb hc).free hd
  · intro hcd
    rw [after_append]
    by_cases hc : c
    · rw [ha.free hc]
      exact (hb hc).broken fun hd => hcd ⟨hc, hd⟩
    · rw [ha.broken hc]
      rfl

/-- A section that takes the mutex and releases it. -/
theorem Ends.section : Ends [.lock, .unlock] True := ⟨fun _ => rfl, fun h => absurd trivial h⟩

end

/-- A program that uses the mutex: its value, and the operations it makes. -/
structure Locked (α : Type) where
  value : α
  ops : List Op

namespace Locked

variable {α β : Type}

instance : Monad Locked where
  pure a := ⟨a, []⟩
  bind x f := ⟨(f x.value).value, x.ops ++ (f x.value).ops⟩

/-- The mutex is taken. -/
def lock : Locked Unit := ⟨(), [.lock]⟩

/-- The mutex is released. -/
def unlock : Locked Unit := ⟨(), [.unlock]⟩

/-- The mutex must be held. -/
def assertOwned : Locked Unit := ⟨(), [.assertOwned]⟩

@[simp] theorem value_pure (a : α) : (pure a : Locked α).value = a := rfl

@[simp] theorem ops_pure (a : α) : (pure a : Locked α).ops = [] := rfl

@[simp] theorem value_bind (x : Locked α) (f : α → Locked β) :
    (x >>= f).value = (f x.value).value := rfl

@[simp] theorem ops_bind (x : Locked α) (f : α → Locked β) :
    (x >>= f).ops = x.ops ++ (f x.value).ops := rfl

@[simp] theorem ops_lock : lock.ops = [.lock] := rfl

@[simp] theorem ops_unlock : unlock.ops = [.unlock] := rfl

@[simp] theorem ops_assertOwned : assertOwned.ops = [.assertOwned] := rfl

theorem value_ite (p : Prop) [Decidable p] (x y : Locked α) :
    (if p then x else y).value = if p then x.value else y.value := apply_ite _ _ _ _

theorem ops_ite (p : Prop) [Decidable p] (x y : Locked α) :
    (if p then x else y).ops = if p then x.ops else y.ops := apply_ite _ _ _ _

end Locked

section

variable {α : Type} {held : Bool} {x : Locked α} {f : Unit → Locked α} {a : List Op} {c d : Prop}

/-- The mutex is taken first. -/
theorem EndsFrom.lock_bind (h : EndsFrom true (f ()).ops c) :
    Ends (Locked.lock >>= f).ops c := by
  rw [Locked.ops_bind, Locked.ops_lock]
  exact ⟨fun hc => h.free hc, fun hc => h.broken hc⟩

/-- The mutex is held where the program asserts it. -/
theorem EndsFrom.assertOwned_bind (h : EndsFrom true (f ()).ops c) :
    EndsFrom true (Locked.assertOwned >>= f).ops c := by
  rw [Locked.ops_bind, Locked.ops_assertOwned]
  exact ⟨fun hc => h.free hc, fun hc => h.broken hc⟩

/-- The held mutex is released. -/
theorem Ends.unlock_bind (h : Ends (f ()).ops c) :
    EndsFrom true (Locked.unlock >>= f).ops c := by
  rw [Locked.ops_bind, Locked.ops_unlock]
  exact ⟨fun hc => h.free hc, fun hc => h.broken hc⟩

/-- A release of the free mutex is never allowed. -/
theorem Ends.unlock_free_bind : Ends (Locked.unlock >>= f).ops False := by
  rw [Locked.ops_bind, Locked.ops_unlock]
  exact ⟨fun h => h.elim, fun _ => rfl⟩

/-- A program without an operation on the mutex. -/
theorem Ends.pure (v : α) : Ends (Pure.pure v : Locked α).ops True := Ends.nil

/-- A program that continues with another one. -/
theorem EndsFrom.bind {β : Type} {y : Locked β} {g : β → Locked α} (hy : EndsFrom held y.ops c)
    (hg : c → Ends (g y.value).ops d) : EndsFrom held (y >>= g).ops (c ∧ d) := by
  rw [Locked.ops_bind]
  exact hy.append hg

/-- A rule that is broken stays broken. -/
theorem Ends.bind_of_false {β : Type} {y : Locked β} (g : β → Locked α) (hy : Ends y.ops False) :
    Ends (y >>= g).ops False :=
  (hy.bind (d := False) fun hc => hc.elim).of_iff (by simp)

end

end Mutex
