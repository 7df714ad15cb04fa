import Mathlib.Algebra.BigOperators.Group.List.Basic
import Mathlib.Algebra.Ring.Nat
import Mathlib.Data.Nat.Cast.Basic
import Mathlib.Data.List.Basic

/-!
# Lists edited in place

The elements of a list stand one behind the other, each in so much space.  A scan comes to every element
with a state and puts other elements into its space; it may stop early.  What an element leaves in front
of its space stays where the element was.

* `sweep` — the scan, with `sweep_append` for the state in which it comes to an element;
* `space_sweep` — the space as a whole is kept; `sweep_balance` — a balance with the state is kept;
* `sweep_first`, `sweep_find` — a scan for one element, which is the only one it changes;
* `StandsAt` — the element at a place, with `StandsAt.unique`;
* **`sweep_at`** — what stands at the place of an element after the scan.
-/

namespace Splice

variable {α σ : Type*}

/-- What is left of an element or of a list, whether the scan stops, and the state. -/
structure Step (α σ : Type*) where
  out : List α
  stop : Bool
  st : σ

/-- The scan over a list; behind the element it stops at it changes nothing. -/
def sweep (f : α → σ → Step α σ) : List α → σ → Step α σ
  | [], s => ⟨[], false, s⟩
  | a :: l, s =>
    if (f a s).stop then ⟨(f a s).out ++ l, true, (f a s).st⟩
    else ⟨(f a s).out ++ (sweep f l (f a s).st).out, (sweep f l (f a s).st).stop, (sweep f l (f a s).st).st⟩

variable {f : α → σ → Step α σ} {size : α → ℕ} {a b : α} {l l' : List α} {s : σ}

@[simp] theorem sweep_nil (f : α → σ → Step α σ) (s : σ) : sweep f [] s = ⟨[], false, s⟩ := rfl

theorem sweep_stop (l : List α) (h : (f a s).stop = true) :
    sweep f (a :: l) s = ⟨(f a s).out ++ l, true, (f a s).st⟩ := if_pos h

theorem sweep_go (l : List α) (h : (f a s).stop = false) :
    sweep f (a :: l) s = ⟨(f a s).out ++ (sweep f l (f a s).st).out, (sweep f l (f a s).st).stop,
      (sweep f l (f a s).st).st⟩ := if_neg (by rw [h]; decide)

/-- A scan that goes on over the first of two lists. -/
theorem sweep_append (l' : List α) (h : (sweep f l s).stop = false) :
    sweep f (l ++ l') s = ⟨(sweep f l s).out ++ (sweep f l' (sweep f l s).st).out,
      (sweep f l' (sweep f l s).st).stop, (sweep f l' (sweep f l s).st).st⟩ := by
  induction l generalizing s with
  | nil => rfl
  | cons a l ih =>
    cases ha : (f a s).stop with
    | true => simp [sweep_stop l ha] at h
    | false =>
      rw [sweep_go l ha] at h
      rw [List.cons_append, sweep_go (l ++ l') ha, ih h, sweep_go l ha]
      simp

/-- A scan that stops in the first of two lists. -/
theorem sweep_append_stop (l' : List α) (h : (sweep f l s).stop = true) :
    sweep f (l ++ l') s = ⟨(sweep f l s).out ++ l', true, (sweep f l s).st⟩ := by
  induction l generalizing s with
  | nil => simp at h
  | cons a l ih =>
    cases ha : (f a s).stop with
    | true =>
      rw [List.cons_append, sweep_stop (l ++ l') ha, sweep_stop l ha]
      simp
    | false =>
      rw [sweep_go l ha] at h
      rw [List.cons_append, sweep_go (l ++ l') ha, ih h, sweep_go l ha]
      simp

/-- A function that never stops does not stop the scan. -/
theorem sweep_goes (h : ∀ a s, (f a s).stop = false) (l : List α) (s : σ) : (sweep f l s).stop = false := by
  induction l generalizing s with
  | nil => rfl
  | cons a l ih =>
    rw [sweep_go l (h a s)]
    exact ih _

/-- What the elements have in common is kept when every step keeps it. -/
theorem sweep_all {p : α → Prop} {I : σ → Prop} (hf : ∀ a s, p a → I s → (∀ b ∈ (f a s).out, p b) ∧ I (f a s).st)
    (hl : ∀ a ∈ l, p a) (hs : I s) : (∀ b ∈ (sweep f l s).out, p b) ∧ I (sweep f l s).st := by
  induction l generalizing s with
  | nil => exact ⟨hl, hs⟩
  | cons a l ih =>
    obtain ⟨hout, hst⟩ := hf a s (hl a List.mem_cons_self) hs
    have htail : ∀ b ∈ l, p b := fun b hb => hl b (List.mem_cons_of_mem a hb)
    cases ha : (f a s).stop with
    | true =>
      rw [sweep_stop l ha]
      exact ⟨fun b hb => (List.mem_append.1 hb).elim (hout b) (htail b), hst⟩
    | false =>
      rw [sweep_go l ha]
      obtain ⟨h1, h2⟩ := ih htail hst
      exact ⟨fun b hb => (List.mem_append.1 hb).elim (hout b) (h1 b), h2⟩

/-- What a step keeps of the state, whatever the element, the scan keeps. -/
theorem sweep_state {R : σ → σ → Prop} (hrefl : ∀ s, R s s) (htrans : ∀ s t u, R s t → R t u → R s u)
    (hf : ∀ a s, R s (f a s).st) (l : List α) (s : σ) : R s (sweep f l s).st := by
  induction l generalizing s with
  | nil => exact hrefl s
  | cons a l ih =>
    cases ha : (f a s).stop with
    | true =>
      rw [sweep_stop l ha]
      exact hf a s
    | false =>
      rw [sweep_go l ha]
      exact htrans _ _ _ (hf a s) (ih _)

/-! ### Space -/

/-- The space that a list takes. -/
def space (size : α → ℕ) (l : List α) : ℕ := (l.map size).sum

@[simp] theorem space_nil (size : α → ℕ) : space size [] = 0 := rfl

@[simp] theorem space_cons (size : α → ℕ) (a : α) (l : List α) :
    space size (a :: l) = size a + space size l := by
  simp [space]

@[simp] theorem space_append (size : α → ℕ) (l l' : List α) :
    space size (l ++ l') = space size l + space size l' := by
  simp [space]

/-- The space as a whole is kept when every step keeps the space of its element. -/
theorem space_sweep {p : α → Prop} {I : σ → Prop}
    (hf : ∀ a s, p a → I s → space size (f a s).out = size a ∧ I (f a s).st)
    (hl : ∀ a ∈ l, p a) (hs : I s) : space size (sweep f l s).out = space size l := by
  induction l generalizing s with
  | nil => rfl
  | cons a l ih =>
    obtain ⟨hout, hst⟩ := hf a s (hl a List.mem_cons_self) hs
    cases ha : (f a s).stop with
    | true =>
      rw [sweep_stop l ha, space_append, hout, space_cons]
    | false =>
      rw [sweep_go l ha, space_append, hout, space_cons,
        ih (fun b hb => hl b (List.mem_cons_of_mem a hb)) hst]

/-- A scan that never stops keeps the balance between the state and the weights of the elements, when
every step does. -/
theorem sweep_balance {M : Type*} [AddCommMonoidWithOne M] {v : σ → M} (hgo : ∀ a s, (f a s).stop = false)
    (hf : ∀ a s, v (f a s).st + (space size (f a s).out : ℕ) = v s) (l : List α) (s : σ) :
    v (sweep f l s).st + (space size (sweep f l s).out : ℕ) = v s := by
  induction l generalizing s with
  | nil => simp
  | cons a l ih =>
    rw [sweep_go l (hgo a s), space_append, Nat.cast_add, add_left_comm, ih, add_comm]
    exact hf a s

/-- A scan that leaves what it does not stop at comes to the rest of the list unchanged. -/
theorem sweep_skip (hkeep : ∀ a s, (f a s).stop = false → (f a s).out = [a] ∧ (f a s).st = s)
    {pre : List α} (hpre : ∀ a ∈ pre, (f a s).stop = false) (l : List α) :
    (sweep f (pre ++ l) s).out = pre ++ (sweep f l s).out ∧
      (sweep f (pre ++ l) s).stop = (sweep f l s).stop := by
  induction pre with
  | nil => exact ⟨rfl, rfl⟩
  | cons a pre ih =>
    obtain ⟨ha, hpre⟩ := List.forall_mem_cons.1 hpre
    obtain ⟨hout, hst⟩ := hkeep a s ha
    obtain ⟨h1, h2⟩ := ih hpre
    rw [List.cons_append, sweep_go (pre ++ l) ha, hout, hst, h1]
    exact ⟨rfl, h2⟩

/-- Such a scan stops at the first element that it is to change. -/
theorem sweep_first (hkeep : ∀ a s, (f a s).stop = false → (f a s).out = [a] ∧ (f a s).st = s)
    {pre : List α} (hpre : ∀ b ∈ pre, (f b s).stop = false) (ha : (f a s).stop = true) (post : List α) :
    (sweep f (pre ++ a :: post) s).out = pre ++ ((f a s).out ++ post) ∧
      (sweep f (pre ++ a :: post) s).stop = true := by
  have hskip := sweep_skip hkeep hpre (a :: post)
  rwa [sweep_stop post ha] at hskip

/-- There is a first element that a scan stops at, or none. -/
theorem sweep_find (f : α → σ → Step α σ) (l : List α) (s : σ) : (∀ a ∈ l, (f a s).stop = false) ∨
      ∃ pre a post, l = pre ++ a :: post ∧ (∀ b ∈ pre, (f b s).stop = false) ∧ (f a s).stop = true := by
  induction l with
  | nil => exact .inl (by simp)
  | cons a l ih =>
    cases ha : (f a s).stop with
    | true => exact .inr ⟨[], a, l, rfl, by simp, ha⟩
    | false =>
      rcases ih with h | ⟨pre, b, post, rfl, h, hb⟩
      · exact .inl (List.forall_mem_cons.2 ⟨ha, h⟩)
      · exact .inr ⟨a :: pre, b, post, rfl, List.forall_mem_cons.2 ⟨ha, h⟩, hb⟩

/-- The element that begins at a place. -/
def StandsAt (size : α → ℕ) (l : List α) (o : ℕ) (a : α) : Prop :=
  ∃ pre post, l = pre ++ a :: post ∧ space size pre = o

theorem StandsAt.mem {o : ℕ} (h : StandsAt size l o a) : a ∈ l := by
  obtain ⟨pre, post, rfl, -⟩ := h
  exact List.mem_append_right pre List.mem_cons_self

theorem StandsAt.append {o : ℕ} (h : StandsAt size l o a) (l' : List α) : StandsAt size (l ++ l') o a := by
  obtain ⟨pre, post, rfl, ho⟩ := h
  exact ⟨pre, post ++ l', by simp, ho⟩

theorem StandsAt.behind {o : ℕ} (h : StandsAt size l o a) (l' : List α) :
    StandsAt size (l' ++ l) (space size l' + o) a := by
  obtain ⟨pre, post, rfl, ho⟩ := h
  exact ⟨l' ++ pre, post, by simp, by simp [ho]⟩

theorem at_head (size : α → ℕ) (a : α) (l : List α) : StandsAt size (a :: l) 0 a := ⟨[], l, rfl, rfl⟩

/-- Elements that take space do not begin at one place. -/
theorem StandsAt.unique {o : ℕ} (hpos : ∀ a ∈ l, 0 < size a) (ha : StandsAt size l o a) (hb : StandsAt size l o b) : a = b := by
  induction l generalizing o with
  | nil => exact absurd ha.mem List.not_mem_nil
  | cons c l ih =>
    obtain ⟨pre, post, h1, ho⟩ := ha
    obtain ⟨pre', post', h2, ho'⟩ := hb
    have hc := hpos c List.mem_cons_self
    cases pre with
    | nil =>
      cases pre' with
      | nil =>
        rw [List.nil_append, List.cons.injEq] at h1 h2
        rw [← h1.1, ← h2.1]
      | cons d pre' =>
        rw [List.cons_append, List.cons.injEq] at h2
        rw [space_cons, ← h2.1] at ho'
        rw [space_nil] at ho
        omega
    | cons d pre =>
      rw [List.cons_append, List.cons.injEq] at h1
      rw [space_cons, ← h1.1] at ho
      cases pre' with
      | nil =>
        rw [space_nil] at ho'
        omega
      | cons e pre' =>
        rw [List.cons_append, List.cons.injEq] at h2
        rw [space_cons, ← h2.1] at ho'
        exact ih (fun x hx => hpos x (List.mem_cons_of_mem c hx))
          ⟨pre, post, h1.2, rfl⟩ ⟨pre', post', h2.2, by omega⟩

/-- **What stands at the place of an element** after the scan: what its step has put in front of the
space, or the element itself when the scan has stopped before. -/
theorem sweep_at {pre post : List α} {b : α} {p : α → Prop} {I : σ → Prop}
    (hf : ∀ a s, p a → I s → space size (f a s).out = size a ∧ I (f a s).st)
    (hl : ∀ a ∈ pre, p a) (hs : I s)
    (hb : (sweep f pre s).stop = false → ∃ rest, (f a (sweep f pre s).st).out = b :: rest)
    (hstop : (sweep f pre s).stop = true → b = a) :
    StandsAt size (sweep f (pre ++ a :: post) s).out (space size pre) b := by
  have hspace := space_sweep hf hl hs
  cases hp : (sweep f pre s).stop with
  | true =>
    rw [sweep_append_stop (a :: post) hp, hstop hp]
    exact ⟨(sweep f pre s).out, post, rfl, hspace⟩
  | false =>
    obtain ⟨rest, hrest⟩ := hb hp
    rw [sweep_append (a :: post) hp]
    show StandsAt size ((sweep f pre s).out ++ (sweep f (a :: post) (sweep f pre s).st).out) _ b
    cases ha : (f a (sweep f pre s).st).stop with
    | true =>
      rw [sweep_stop post ha, hrest]
      exact ⟨(sweep f pre s).out, rest ++ post, rfl, hspace⟩
    | false =>
      rw [sweep_go post ha, hrest]
      exact ⟨(sweep f pre s).out, _, by rw [List.cons_append], hspace⟩

end Splice
