import Mathlib.Algebra.BigOperators.Group.List.Basic
import Mathlib.Algebra.Order.Group.Int
import Mathlib.Tactic.Ring

/-!
# References taken and dropped

A component that takes references on objects and drops them again, seen as the list of what it does in
order.  `net` is the change it makes to the count of one object.  A list is `Balanced` when every count
ends where it started and no object was dropped more often than it had been taken before: then the
component has left the references of its caller alone.
-/

namespace RefCount

/-- A reference is taken, or dropped. -/
inductive RefOp (V : Type*) where
  | get (v : V)
  | put (v : V)
  deriving DecidableEq, Repr

variable {V : Type*} [DecidableEq V]

/-- The change of the count of `v`. -/
def RefOp.delta (v : V) : RefOp V → ℤ
  | .get w => if w = v then 1 else 0
  | .put w => if w = v then -1 else 0

/-- The change that a list of operations makes to the count of `v`. -/
def net (v : V) (ops : List (RefOp V)) : ℤ := (ops.map (RefOp.delta v)).sum

/-- The references of the caller are left alone. -/
structure Balanced (ops : List (RefOp V)) : Prop where
  covered : ∀ p, p <+: ops → ∀ v, 0 ≤ net v p
  settled : ∀ v, net v ops = 0

variable {v w : V} {ops ops' : List (RefOp V)}

@[simp] theorem net_nil (v : V) : net v [] = 0 := rfl

@[simp] theorem net_put (v w : V) (ops : List (RefOp V)) :
    net v (.put w :: ops) = net v ops - if w = v then 1 else 0 := by
  show (if w = v then -1 else 0) + net v ops = _
  split <;> ring

@[simp] theorem net_get (v w : V) (ops : List (RefOp V)) :
    net v (.get w :: ops) = net v ops + if w = v then 1 else 0 := by
  show (if w = v then 1 else 0) + net v ops = _
  split <;> ring

@[simp] theorem net_append (v : V) (ops ops' : List (RefOp V)) :
    net v (ops ++ ops') = net v ops + net v ops' := by
  show ((ops ++ ops').map (RefOp.delta v)).sum = _
  rw [List.map_append, List.sum_append]
  rfl

/-- What is dropped before it was taken belongs to the caller. -/
theorem not_balanced_of_put (h : [.put v] <+: ops) : ¬Balanced ops := by
  intro hb
  have hle := hb.covered _ h v
  simp at hle

/-- One operation list drops at most, after another. -/
def Drops (ops ops' : List (RefOp V)) : Prop := ∃ more, ops' = ops ++ more ∧ ∀ v, net v more ≤ 0

namespace Drops

theorem refl (ops : List (RefOp V)) : Drops ops ops := ⟨[], (List.append_nil _).symm, fun _ => le_rfl⟩

theorem trans {a b c : List (RefOp V)} (h : Drops a b) (h' : Drops b c) : Drops a c := by
  obtain ⟨x, rfl, hx⟩ := h
  obtain ⟨y, rfl, hy⟩ := h'
  refine ⟨x ++ y, List.append_assoc _ _ _, fun v => ?_⟩
  rw [net_append]
  exact add_nonpos (hx v) (hy v)

theorem put (ops : List (RefOp V)) (w : V) : Drops ops (ops ++ [.put w]) := by
  refine ⟨[.put w], rfl, fun v => ?_⟩
  rw [net_put, net_nil]
  split <;> omega

theorem net_le (h : Drops ops ops') (v : V) : net v ops' ≤ net v ops := by
  obtain ⟨more, rfl, hmore⟩ := h
  rw [net_append]
  have := hmore v
  omega

theorem isPrefix (h : Drops ops ops') : ops <+: ops' := by
  obtain ⟨more, rfl, -⟩ := h
  exact List.prefix_append _ _

end Drops

end RefCount
