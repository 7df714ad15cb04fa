import Mathlib.Data.Nat.Basic
import Mathlib.Tactic.Common

/-!
# Programs that may stop

A program changes a state and returns a result, or stops half way; what it has done to the state until
then stays done.

* `Stopping` — a program on a state;
* `Meets` — from a state of one kind it ends in one of the second kind with its result, or stops in one
  of the third kind;
* `Meets.bind`, `Meets.each`, `Meets.gather` — the rules for two steps and for loops;
* `Keeps` — an invariant, whether the program comes to its end or not.
-/

/-- A program with results in `α` on states in `σ`. -/
def Stopping (σ α : Type) : Type := σ → Option α × σ

namespace Stopping

variable {σ α β : Type}

instance : Monad (Stopping σ) where
  pure a := fun s => (some a, s)
  bind x f := fun s =>
    match x s with
    | (some a, t) => f a t
    | (none, t) => (none, t)

/-- The program stops. -/
def stop : Stopping σ α := fun s => (none, s)

/-- It looks at the state. -/
def get : Stopping σ σ := fun s => (some s, s)

/-- It changes the state. -/
def modify (f : σ → σ) : Stopping σ Unit := fun s => (some (), f s)

/-- It stops where there is nothing to go on with. -/
def ofOption : Option α → Stopping σ α
  | some a => pure a
  | none => stop

/-- It stops unless a condition holds. -/
def assert (c : Prop) [Decidable c] : Stopping σ Unit := if c then pure () else stop

/-- It is run under a condition only. -/
def when (c : Prop) [Decidable c] (x : Stopping σ Unit) : Stopping σ Unit := if c then x else pure ()

/-- One program for each entry of a list. -/
def each (f : β → Stopping σ Unit) : List β → Stopping σ Unit
  | [] => pure ()
  | b :: bs => do
    f b
    each f bs

/-- The same program a number of times, with the list of its results. -/
def gather (x : Stopping σ α) : ℕ → Stopping σ (List α)
  | 0 => pure []
  | n + 1 => do
    let a ← x
    let as ← gather x n
    return a :: as

/-- **From a state in `P`** the program ends in one in `Q`, or stops in one in `E`. -/
structure Meets (P : σ → Prop) (x : Stopping σ α) (Q : α → σ → Prop) (E : σ → Prop) : Prop where
  of_run : ∀ s, P s → match x s with
    | (some a, t) => Q a t
    | (none, t) => E t

namespace Meets

variable {P P' : σ → Prop} {Q Q' : α → σ → Prop} {R : β → σ → Prop} {E : σ → Prop}
  {x : Stopping σ α} {f : α → Stopping σ β}

theorem pure {a : α} (h : ∀ s, P s → Q a s) : Meets P (Pure.pure a) Q E := ⟨h⟩

theorem stop (h : ∀ s, P s → E s) : Meets P (Stopping.stop : Stopping σ α) Q E := ⟨h⟩

theorem modify {f : σ → σ} {Q : Unit → σ → Prop} (h : ∀ s, P s → Q () (f s)) :
    Meets P (Stopping.modify f) Q E := ⟨h⟩

theorem get {Q : σ → σ → Prop} (h : ∀ s, P s → Q s s) : Meets P Stopping.get Q E := ⟨h⟩

/-- **Two steps.** -/
theorem bind (hx : Meets P x Q E) (hf : ∀ a, Meets (Q a) (f a) R E) : Meets P (x >>= f) R E := by
  refine ⟨fun s hs => ?_⟩
  have h := hx.of_run s hs
  show match (match x s with
    | (some a, t) => f a t
    | (none, t) => (none, t)) with
    | (some b, t) => R b t
    | (none, t) => E t
  cases hxs : x s with
  | mk r t =>
    rw [hxs] at h
    cases r with
    | none => exact h
    | some a => exact (hf a).of_run t h

/-- What a program needs can be more, and what it promises less. -/
theorem weaken (h : Meets P x Q E) (hP : ∀ s, P' s → P s) (hQ : ∀ a s, Q a s → Q' a s) :
    Meets P' x Q' E := by
  refine ⟨fun s hs => ?_⟩
  have hx := h.of_run s (hP s hs)
  cases hxs : x s with
  | mk r t =>
    rw [hxs] at hx
    cases r with
    | none => exact hx
    | some a => exact hQ a t hx

theorem strengthen (h : Meets P x Q E) (hP : ∀ s, P' s → P s) : Meets P' x Q E :=
  h.weaken hP fun _ _ hq => hq

theorem relax (h : Meets P x Q E) (hQ : ∀ a s, Q a s → Q' a s) : Meets P x Q' E :=
  h.weaken (fun _ hs => hs) hQ

/-- A fact that does not depend on the state. -/
theorem fact {c : Prop} (h : c → Meets P x Q E) : Meets (fun s => c ∧ P s) x Q E :=
  ⟨fun s hs => (h hs.1).of_run s hs.2⟩

theorem ofOption {o : Option α} (hnone : o = none → ∀ s, P s → E s)
    (hsome : ∀ a, o = some a → ∀ s, P s → Q a s) : Meets P (Stopping.ofOption o) Q E := by
  cases o with
  | none => exact stop (hnone rfl)
  | some a => exact pure (hsome a rfl)

/-- The test of a condition. -/
theorem ite {c : Prop} [Decidable c] {y : Stopping σ α} (hx : c → Meets P x Q E)
    (hy : ¬c → Meets P y Q E) : Meets P (if c then x else y) Q E := by
  by_cases h : c
  · rw [if_pos h]
    exact hx h
  · rw [if_neg h]
    exact hy h

theorem assert {c : Prop} [Decidable c] {Q : Unit → σ → Prop} (hyes : c → ∀ s, P s → Q () s)
    (hno : ¬c → ∀ s, P s → E s) : Meets P (Stopping.assert c) Q E :=
  ite (fun h => pure (hyes h)) fun h => stop (hno h)

theorem when {c : Prop} [Decidable c] {y : Stopping σ Unit} {Q : Unit → σ → Prop}
    (hyes : c → Meets P y Q E) (hno : ¬c → ∀ s, P s → Q () s) : Meets P (Stopping.when c y) Q E :=
  ite hyes fun h => pure (hno h)

/-- **A loop over a list**: `I` holds of what is still to be done. -/
theorem each {f : β → Stopping σ Unit} {I : List β → σ → Prop} (bs : List β)
    (h : ∀ b bs, Meets (I (b :: bs)) (f b) (fun _ => I bs) E) :
    Meets (I bs) (Stopping.each f bs) (fun _ => I []) E := by
  induction bs with
  | nil => exact pure fun _ hs => hs
  | cons b bs ih => exact (h b bs).bind fun _ => ih

/-- A loop that keeps `I`, for the entries of a list. -/
theorem each_mem {f : β → Stopping σ Unit} {I : σ → Prop} (bs : List β)
    (h : ∀ b ∈ bs, Meets I (f b) (fun _ => I) E) :
    Meets I (Stopping.each f bs) (fun _ => I) E := by
  induction bs with
  | nil => exact pure fun _ hs => hs
  | cons b bs ih =>
    refine (h b List.mem_cons_self).bind fun _ => ih fun b' hb' => ?_
    exact h b' (List.mem_cons_of_mem b hb')

/-- **A loop that counts**: `I k` holds when it has been run `k` times. -/
theorem each_range {f : ℕ → Stopping σ Unit} {I : ℕ → σ → Prop} (n : ℕ)
    (h : ∀ k < n, Meets (I k) (f k) (fun _ => I (k + 1)) E) :
    Meets (I 0) (Stopping.each f (List.range n)) (fun _ => I n) E := by
  have hgo : ∀ m a, a + m = n →
      Meets (I a) (Stopping.each f (List.range' a m)) (fun _ => I n) E := by
    intro m
    induction m with
    | zero =>
      intro a ha
      obtain rfl : a = n := ha
      exact pure fun _ hs => hs
    | succ m ih =>
      intro a ha
      rw [List.range'_succ]
      exact (h a (by omega)).bind fun _ => ih (a + 1) (by omega)
  rw [List.range_eq_range']
  exact hgo n 0 (Nat.zero_add n)

/-- **The results of a loop**: `I l` holds when they are `l` so far. -/
theorem gather {I : List α → σ → Prop} {n : ℕ} (l : List α)
    (h : ∀ l, Meets (I l) x (fun a => I (l ++ [a])) E) :
    Meets (I l) (Stopping.gather x n) (fun as s => as.length = n ∧ I (l ++ as) s) E := by
  induction n generalizing l with
  | zero => exact pure fun s hs => ⟨rfl, by rwa [List.append_nil]⟩
  | succ n ih =>
    refine (h l).bind fun a => (ih (l ++ [a])).bind fun as => pure fun s hs => ?_
    refine ⟨congrArg (· + 1) hs.1, ?_⟩
    have hs2 := hs.2
    rwa [List.append_assoc] at hs2

/-- What holds however the program ends. -/
theorem always {E : σ → Prop} (h : Meets P x (fun _ => E) E) {s : σ} (hs : P s) : E (x s).2 := by
  have hx := h.of_run s hs
  cases hxs : x s with
  | mk r t =>
    rw [hxs] at hx
    cases r with
    | none => exact hx
    | some a => exact hx

/-- What a program that stops may leave can be less. -/
theorem loosen {E' : σ → Prop} (h : Meets P x Q E) (hE : ∀ s, E s → E' s) : Meets P x Q E' := by
  refine ⟨fun s hs => ?_⟩
  have hx := h.of_run s hs
  cases hxs : x s with
  | mk r t =>
    rw [hxs] at hx
    cases r with
    | none => exact hE t hx
    | some a => exact hx

/-- Nothing comes behind a program that never ends. -/
theorem bind_never (h : Meets P x (fun _ _ => False) E) : Meets P (x >>= f) R E :=
  h.bind fun _ => ⟨fun _ hs => hs.elim⟩

/-- What a run that comes to its end leaves. -/
theorem run (h : Meets P x Q E) {s t : σ} {a : α} (hs : P s) (hrun : x s = (some a, t)) : Q a t := by
  have hx := h.of_run s hs
  rw [hrun] at hx
  exact hx

end Meets

/-! ### Invariants -/

/-- **`I` is kept**, wherever the program ends. -/
def Keeps (I : σ → Prop) (x : Stopping σ α) : Prop := Meets I x (fun _ => I) I

namespace Keeps

variable {I : σ → Prop} {x : Stopping σ α}

theorem pure (a : α) : Keeps I (Pure.pure a) := Meets.pure fun _ hs => hs

theorem get : Keeps I Stopping.get := Meets.get fun _ hs => hs

theorem modify {f : σ → σ} (h : ∀ s, I s → I (f s)) : Keeps I (Stopping.modify f) := Meets.modify h

theorem ofOption (o : Option α) : Keeps I (Stopping.ofOption o) :=
  Meets.ofOption (fun _ _ hs => hs) fun _ _ _ hs => hs

theorem bind {f : α → Stopping σ β} (hx : Keeps I x) (hf : ∀ a, Keeps I (f a)) :
    Keeps I (x >>= f) := Meets.bind hx hf

theorem ite {c : Prop} [Decidable c] {y : Stopping σ α} (hx : Keeps I x) (hy : Keeps I y) :
    Keeps I (if c then x else y) := Meets.ite (fun _ => hx) fun _ => hy

theorem assert (c : Prop) [Decidable c] : Keeps I (Stopping.assert c) :=
  Meets.assert (fun _ _ hs => hs) fun _ _ hs => hs

theorem when {c : Prop} [Decidable c] {y : Stopping σ Unit} (hy : Keeps I y) :
    Keeps I (Stopping.when c y) := Meets.when (fun _ => hy) fun _ _ hs => hs

theorem each {f : β → Stopping σ Unit} (hf : ∀ b, Keeps I (f b)) (bs : List β) :
    Keeps I (Stopping.each f bs) := Meets.each_mem bs fun b _ => hf b

theorem gather (hx : Keeps I x) (n : ℕ) : Keeps I (Stopping.gather x n) := by
  induction n with
  | zero => exact pure _
  | succ n ih => exact hx.bind fun a => ih.bind fun as => pure _

end Keeps

end Stopping
