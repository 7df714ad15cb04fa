import Mathlib.Data.Nat.Basic
import Mathlib.Tactic.Ring

/-!
# Binary search for the last entry that is not too far

`search p l r` looks among the entries `l, …, r` for the last one that is not above (`p`) what is
looked for, and returns its index; the index before `l` says that there is none.  Both ends are
included, so that an empty range is one with `r < l`.

* `search_bounds` — the result is next to the range or in it, whatever the entries are;
* `search_spec` — in a sorted range it separates the entries that are not above from those that are;
* `looks_bounds` — the entries it looks at are entries of the range.
-/

namespace BinarySearch

variable {p : ℕ → Prop} [DecidablePred p] {l r : ℕ}

/-- The loop, at most `fuel` rounds of it.  The result is the left end after the last round. -/
def loop (p : ℕ → Prop) [DecidablePred p] : ℕ → ℕ → ℕ → ℕ
  | 0, l, _ => l
  | fuel + 1, l, r =>
      if l ≤ r then
        let m := l + (r - l) / 2
        if p m then loop p fuel l (m - 1) else loop p fuel (m + 1) r
      else l

/-- Each round takes an entry out of the range, so a round for each is enough. -/
def search (p : ℕ → Prop) [DecidablePred p] (l r : ℕ) : ℕ :=
  loop p (r + 1 - l) l r - 1

theorem loop_bounds (fuel : ℕ) (hl : 0 < l) (hfuel : r + 1 - l ≤ fuel) :
    l ≤ loop p fuel l r ∧ loop p fuel l r ≤ max l (r + 1) := by
  induction fuel generalizing l r with
  | zero => exact ⟨le_rfl, le_max_left _ _⟩
  | succ fuel ih =>
    rw [loop]
    split
    · next hle =>
      simp only
      split
      · have h := ih (r := l + (r - l) / 2 - 1) hl (by omega)
        omega
      · have h := ih (l := l + (r - l) / 2 + 1) (r := r) (by omega) (by omega)
        omega
    · exact ⟨le_rfl, le_max_left _ _⟩

/-- The result is an entry of the range, or the one before it. -/
theorem search_bounds (hl : 0 < l) : l - 1 ≤ search p l r ∧ search p l r ≤ max (l - 1) r := by
  have h := loop_bounds (p := p) (r + 1 - l) (r := r) hl le_rfl
  unfold search
  omega

/-- Once an entry is above, all entries behind it are. -/
def Sorted (p : ℕ → Prop) (l r : ℕ) : Prop :=
  ∀ i j, l ≤ i → i ≤ j → j ≤ r → p i → p j

theorem loop_spec (fuel : ℕ) {lo hi : ℕ} (hs : Sorted p lo hi) (hlo : lo ≤ l) (hl : 0 < l)
    (hr : r ≤ hi) (hfuel : r + 1 - l ≤ fuel) (hbelow : ∀ i, lo ≤ i → i < l → ¬ p i)
    (habove : ∀ i, r < i → i ≤ hi → p i) :
    (∀ i, lo ≤ i → i < loop p fuel l r → ¬ p i) ∧
      ∀ i, loop p fuel l r ≤ i → l ≤ i → i ≤ hi → p i := by
  induction fuel generalizing l r with
  | zero => exact ⟨hbelow, fun i _ hli hi => habove i (by omega) hi⟩
  | succ fuel ih =>
    rw [loop]
    split
    · next hle =>
      simp only
      have hm : lo ≤ l + (r - l) / 2 := by omega
      split
      · next hab =>
        refine ih (r := l + (r - l) / 2 - 1) hlo hl (by omega) (by omega) hbelow fun i hlt hi => ?_
        exact hs _ i hm (by omega) hi hab
      · next hab =>
        have hbelow' : ∀ i, lo ≤ i → i < l + (r - l) / 2 + 1 → ¬ p i := fun i hloi hlt hai =>
          hab (hs i _ hloi (by omega) (by omega) hai)
        have h := ih (l := l + (r - l) / 2 + 1) (by omega) (by omega) hr (by omega) hbelow' habove
        refine ⟨h.1, fun i hle' hli hi => h.2 i hle' ?_ hi⟩
        have hb := (loop_bounds (p := p) fuel (l := l + (r - l) / 2 + 1) (r := r) (by omega)
          (by omega)).1
        omega
    · exact ⟨hbelow, fun i _ hli hi => habove i (by omega) hi⟩

/-- **The search.**  In a sorted range the entries up to the result are not above, and those behind it
are. -/
theorem search_spec (hl : 0 < l) (hs : Sorted p l r) :
    (∀ i, l ≤ i → i ≤ search p l r → ¬ p i) ∧
      ∀ i, l ≤ i → search p l r < i → i ≤ r → p i := by
  have hb := (loop_bounds (p := p) (r + 1 - l) (r := r) hl le_rfl).1
  have h := loop_spec (p := p) (r + 1 - l) hs le_rfl hl le_rfl le_rfl
    (fun i h h' => absurd h (by omega)) fun i h h' => absurd h (by omega)
  unfold search
  exact ⟨fun i hi hle => h.1 i hi (by omega), fun i hi hlt hr => h.2 i (by omega) hi hr⟩

/-- The result is the entry `i`, if `i` is not above and the next one is. -/
theorem search_eq {i : ℕ} (hl : 0 < l) (hs : Sorted p l r) (hi : l ≤ i) (hir : i ≤ r)
    (hat : ¬ p i) (hnext : ∀ j, i < j → j ≤ r → p j) : search p l r = i := by
  obtain ⟨hbelow, habove⟩ := search_spec hl hs
  have hb := search_bounds (p := p) (r := r) hl
  rcases lt_trichotomy (search p l r) i with h | h | h
  · exact absurd (habove i hi h hir) hat
  · exact h
  · exact absurd (hnext _ h (by omega)) (hbelow _ (by omega) le_rfl)

/-! ### The entries that are looked at -/

/-- The entries the loop looks at, in their order. -/
def looksFrom (p : ℕ → Prop) [DecidablePred p] : ℕ → ℕ → ℕ → List ℕ
  | 0, _, _ => []
  | fuel + 1, l, r =>
      if l ≤ r then
        let m := l + (r - l) / 2
        m :: if p m then looksFrom p fuel l (m - 1) else looksFrom p fuel (m + 1) r
      else []

/-- The entries the search looks at. -/
def looks (p : ℕ → Prop) [DecidablePred p] (l r : ℕ) : List ℕ := looksFrom p (r + 1 - l) l r

theorem looksFrom_bounds (fuel : ℕ) {i : ℕ} (hl : 0 < l) (hi : i ∈ looksFrom p fuel l r) :
    l ≤ i ∧ i ≤ r := by
  induction fuel generalizing l r with
  | zero => cases hi
  | succ fuel ih =>
    rw [looksFrom] at hi
    by_cases hle : l ≤ r
    · rw [if_pos hle] at hi
      rcases List.mem_cons.1 hi with rfl | hi
      · omega
      · by_cases hp : p (l + (r - l) / 2)
        · rw [if_pos hp] at hi
          have h := ih hl hi
          omega
        · rw [if_neg hp] at hi
          have h := ih (by omega) hi
          omega
    · rw [if_neg hle] at hi
      cases hi

/-- **Nothing outside the range is looked at.** -/
theorem looks_bounds {i : ℕ} (hl : 0 < l) (hi : i ∈ looks p l r) : l ≤ i ∧ i ≤ r :=
  looksFrom_bounds (r + 1 - l) hl hi

end BinarySearch
