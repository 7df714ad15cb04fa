import Mathlib.Algebra.Ring.Nat
import Mathlib.Tactic.Common

/-!
# Unsigned arithmetic that remembers whether it was exact

A computation with unsigned words has a result and a flag: no step wrapped around, and no divisor was
zero.  A step that is not exact goes on with the wrapped value.

* `Tracked` — a result with the flag;
* `Yields` — a computation is exact under a condition, and then has a known result;
* `Yields.bind`, `Yields.step` — the rules for two steps;
* `Yields.fold` — the rule for a loop.
-/

/-- A result, and whether the way to it was exact. -/
structure Tracked (α : Type) where
  value : α
  exact : Bool
  deriving DecidableEq, Repr

namespace Tracked

variable {α β : Type}

instance : Monad Tracked where
  pure a := ⟨a, true⟩
  bind t f := ⟨(f t.value).value, t.exact && (f t.value).exact⟩

/-- The conversion to an unsigned type of `w` bits. -/
def conv (w x : ℕ) : Tracked ℕ := ⟨x % 2 ^ w, decide (x < 2 ^ w)⟩

/-- The sum of two words of `w` bits. -/
def add (w x y : ℕ) : Tracked ℕ := conv w (x + y)

/-- Their product. -/
def mul (w x y : ℕ) : Tracked ℕ := conv w (x * y)

/-- Their difference. -/
def sub (w x y : ℕ) : Tracked ℕ := ⟨(x + (2 ^ w - y % 2 ^ w)) % 2 ^ w, decide (y ≤ x)⟩

/-- The quotient; it is 0 for the divisor 0. -/
def div (x y : ℕ) : Tracked ℕ := ⟨x / y, decide (y ≠ 0)⟩

/-- The steps of a loop, one after the other. -/
def fold (f : β → α → Tracked β) : List α → β → Tracked β
  | [], b => pure b
  | a :: as, b => do
    let b ← f b a
    fold f as b

/-- The computation is exact if and only if `c` holds, and then its result is `v`. -/
structure Yields (t : Tracked α) (c : Prop) (v : α) : Prop where
  exact_iff : t.exact = true ↔ c
  value_eq : c → t.value = v

namespace Yields

variable {t : Tracked α} {f : α → Tracked β} {c d : Prop} {v : α} {u : β} {w x y : ℕ}

theorem pure (a : α) : Yields (Pure.pure a) True a := ⟨iff_of_true rfl trivial, fun _ => rfl⟩

/-- **Two steps**: the second one is looked at for the result of the first. -/
theorem bind (h : Yields t c v) (hf : c → Yields (f v) d u) : Yields (t >>= f) (c ∧ d) u where
  exact_iff := by
    show (t.exact && (f t.value).exact) = true ↔ c ∧ d
    rw [Bool.and_eq_true, h.exact_iff]
    refine and_congr_right fun hc => ?_
    rw [h.value_eq hc]
    exact (hf hc).exact_iff
  value_eq hcd := by
    show (f t.value).value = u
    rw [h.value_eq hcd.1]
    exact (hf hcd.1).value_eq hcd.2

theorem congr (h : Yields t c v) (hc : c ↔ d) : Yields t d v :=
  ⟨h.exact_iff.trans hc, fun hd => h.value_eq (hc.2 hd)⟩

/-- **One step of a program** whose condition is known: the step is exact under it, and the rest is
looked at for the result of the step. -/
theorem step {e : Prop} (h : Yields t c v) (hc : e → c) (hf : c → Yields (f v) e u) :
    Yields (t >>= f) e u :=
  (h.bind hf).congr ⟨fun hce => hce.2, fun he => ⟨hc he, he⟩⟩

/-- The last step. -/
theorem last {e : Prop} {u : α} (h : Yields t c v) (hc : e ↔ c) (hu : c → v = u) :
    Yields t e u :=
  ⟨h.exact_iff.trans hc.symm, fun he => (h.value_eq (hc.1 he)).trans (hu (hc.1 he))⟩

/-- The end of a program, where its condition has come up. -/
theorem done {a u : α} (hc : c) (hu : a = u) : Yields (Pure.pure a) c u :=
  (pure a).last (iff_of_true hc trivial) fun _ => hu

theorem conv : Yields (conv w x) (x < 2 ^ w) x :=
  ⟨decide_eq_true_iff, fun h => Nat.mod_eq_of_lt h⟩

theorem add : Yields (add w x y) (x + y < 2 ^ w) (x + y) := conv

theorem mul : Yields (mul w x y) (x * y < 2 ^ w) (x * y) := conv

theorem sub (hx : x < 2 ^ w) : Yields (sub w x y) (y ≤ x) (x - y) := by
  refine ⟨decide_eq_true_iff, fun h => ?_⟩
  show (x + (2 ^ w - y % 2 ^ w)) % 2 ^ w = x - y
  rw [Nat.mod_eq_of_lt (Nat.lt_of_le_of_lt h hx)]
  have hsum : x + (2 ^ w - y) = x - y + 2 ^ w := by omega
  rw [hsum, Nat.add_mod_right, Nat.mod_eq_of_lt (by omega)]

theorem div : Yields (div x y) (y ≠ 0) (x / y) := ⟨decide_eq_true_iff, fun _ => rfl⟩

theorem fold_append {f : β → α → Tracked β} (l r : List α) (b : β) :
    (fold f (l ++ r) b).value = (fold f r (fold f l b).value).value ∧
      (fold f (l ++ r) b).exact = ((fold f l b).exact && (fold f r (fold f l b).value).exact) := by
  induction l generalizing b with
  | nil => exact ⟨rfl, (Bool.true_and _).symm⟩
  | cons a l ih =>
    obtain ⟨hv, he⟩ := ih (f b a).value
    refine ⟨hv, ?_⟩
    show ((f b a).exact && (fold f (l ++ r) (f b a).value).exact) = _
    rw [he, ← Bool.and_assoc]
    rfl

/-- **A loop** over the numbers below `n`, whose state before round `c` is `g c`, is exact where every
round is. -/
theorem fold_range {f : β → ℕ → Tracked β} {g : ℕ → β} {p : ℕ → Prop} {n : ℕ}
    (h : ∀ c < n, Yields (f (g c) c) (p c) (g (c + 1))) :
    Yields (Tracked.fold f (List.range n) (g 0)) (∀ c < n, p c) (g n) := by
  induction n with
  | zero => exact (pure (g 0)).congr (iff_of_true trivial fun c hc => absurd hc (Nat.not_lt_zero c))
  | succ n ih =>
    have hprev := ih fun c hc => h c (Nat.lt_succ_of_lt hc)
    obtain ⟨hv, he⟩ := fold_append (f := f) (List.range n) [n] (g 0)
    have hsplit : (∀ c < n + 1, p c) ↔ (∀ c < n, p c) ∧ p n :=
      ⟨fun hp => ⟨fun c hc => hp c (Nat.lt_succ_of_lt hc), hp n (Nat.lt_succ_self n)⟩, fun hp c hc =>
        (Nat.lt_succ_iff_lt_or_eq.1 hc).elim (hp.1 c) fun heq => heq ▸ hp.2⟩
    have hlast : Yields (Tracked.fold f [n] (g n)) (p n) (g (n + 1)) :=
      ((h n (Nat.lt_succ_self n)).bind fun _ => pure _).congr (and_iff_left trivial)
    rw [List.range_succ]
    refine ⟨?_, fun hp => ?_⟩
    · rw [he, Bool.and_eq_true, hprev.exact_iff, hsplit]
      refine and_congr_right fun hp => ?_
      rw [hprev.value_eq hp]
      exact hlast.exact_iff
    · rw [hv, hprev.value_eq (hsplit.1 hp).1]
      exact hlast.value_eq (hsplit.1 hp).2

end Yields

end Tracked
