import Mathlib.Algebra.BigOperators.Group.Finset.Basic
import Mathlib.Data.Finset.Prod
import Mathlib.Tactic.Abel

/-!
# Maximal runs of a predicate on an initial segment

A run is a maximal interval of positions below `n` on which a predicate holds.  The lengths of the runs
are weighed by any function; the weight of all of them changes at three places when one position changes.

* `IsRun`, `runs` — the maximal runs;
* `Behind`, `Ahead` — how far the predicate holds before and after a position;
* **`weight_take`** — what the change of one position does to the weight;
* `weight_succ_of_not`, `weight_succ` — a segment that is one position longer.
-/

namespace MaxRuns

variable {p : ℕ → Bool} {n s e b x y : ℕ}

/-- `[s, e)` is a maximal run of `p` below `n`. -/
structure IsRun (p : ℕ → Bool) (n s e : ℕ) : Prop where
  lt : s < e
  le : e ≤ n
  all : ∀ i, s ≤ i → i < e → p i = true
  left : 0 < s → p (s - 1) = false
  right : e < n → p e = false

theorem isRun_iff : IsRun p n s e ↔ s < e ∧ e ≤ n ∧ (∀ i, s ≤ i → i < e → p i = true) ∧
    (0 < s → p (s - 1) = false) ∧ (e < n → p e = false) :=
  ⟨fun h => ⟨h.lt, h.le, h.all, h.left, h.right⟩, fun ⟨h₁, h₂, h₃, h₄, h₅⟩ => ⟨h₁, h₂, h₃, h₄, h₅⟩⟩

instance : Decidable (IsRun p n s e) := decidable_of_iff _ isRun_iff.symm

/-- The maximal runs, by their ends. -/
def runs (p : ℕ → Bool) (n : ℕ) : Finset (ℕ × ℕ) :=
  (Finset.range (n + 1) ×ˢ Finset.range (n + 1)).filter fun r => IsRun p n r.1 r.2

@[simp] theorem mem_runs {r : ℕ × ℕ} : r ∈ runs p n ↔ IsRun p n r.1 r.2 := by
  simp only [runs, Finset.mem_filter, Finset.mem_product, Finset.mem_range, and_iff_right_iff_imp]
  intro h
  have := h.lt
  have := h.le
  omega

/-- The weight of all runs together, where a run counts by its length. -/
def weight (p : ℕ → Bool) (n : ℕ) (f : ℕ → ℤ) : ℤ := ∑ r ∈ runs p n, f (r.2 - r.1)

@[simp] theorem weight_zero (p : ℕ → Bool) (f : ℕ → ℤ) : weight p 0 f = 0 := by
  refine Finset.sum_eq_zero fun r hr => ?_
  have h := mem_runs.1 hr
  have := h.lt
  have := h.le
  omega

/-- Only the positions below `n` count. -/
theorem runs_congr {q : ℕ → Bool} (h : ∀ i < n, p i = q i) : runs p n = runs q n := by
  ext ⟨s, e⟩
  simp only [mem_runs, isRun_iff]
  grind

theorem weight_congr {q : ℕ → Bool} (h : ∀ i < n, p i = q i) (f : ℕ → ℤ) :
    weight p n f = weight q n f := by
  rw [weight, weight, runs_congr h]

/-! ### The two sides of a position -/

/-- The `x` positions before `b` have the property, and there are no more of them. -/
structure Behind (p : ℕ → Bool) (b x : ℕ) : Prop where
  le : x ≤ b
  all : ∀ i, b - x ≤ i → i < b → p i = true
  stop : x < b → p (b - x - 1) = false

/-- The `y` positions from `b` on have the property, and there are no more of them below `n`. -/
structure Ahead (p : ℕ → Bool) (n b y : ℕ) : Prop where
  le : b + y ≤ n
  all : ∀ i, b ≤ i → i < b + y → p i = true
  stop : b + y < n → p (b + y) = false

/-- The number of positions before `b`. -/
def behind (p : ℕ → Bool) : ℕ → ℕ
  | 0 => 0
  | b + 1 => if p b then behind p b + 1 else 0

theorem behind_spec (p : ℕ → Bool) (b : ℕ) : Behind p b (behind p b) := by
  induction b with
  | zero => exact ⟨le_rfl, by omega, by omega⟩
  | succ b ih =>
    obtain ⟨hle, hall, hstop⟩ := ih
    unfold behind
    split
    next hp =>
      refine ⟨by omega, fun i hi hib => ?_, fun h => ?_⟩
      · rcases eq_or_ne i b with rfl | hne
        · exact hp
        · exact hall i (by omega) (by omega)
      · have hs := hstop (by omega)
        rwa [show b + 1 - (behind p b + 1) - 1 = b - behind p b - 1 by omega]
    next hp => exact ⟨by omega, by omega, fun _ => by simpa using hp⟩

/-- The number of positions among the `k` ones from `b` on. -/
def ahead (p : ℕ → Bool) : ℕ → ℕ → ℕ
  | _, 0 => 0
  | b, k + 1 => if p b then ahead p (b + 1) k + 1 else 0

theorem ahead_spec (p : ℕ → Bool) (b k : ℕ) : Ahead p (b + k) b (ahead p b k) := by
  induction k generalizing b with
  | zero => exact ⟨le_rfl, fun i _ hi => absurd hi (by simp only [ahead]; omega), by simp [ahead]⟩
  | succ k ih =>
    obtain ⟨hle, hall, hstop⟩ := ih (b + 1)
    unfold ahead
    split
    next hp =>
      refine ⟨by omega, fun i hi hib => ?_, fun h => ?_⟩
      · rcases eq_or_ne i b with rfl | hne
        · exact hp
        · exact hall i (by omega) (by omega)
      · rw [show b + (ahead p (b + 1) k + 1) = b + 1 + ahead p (b + 1) k by omega]
        exact hstop (by omega)
    next hp => exact ⟨by omega, fun i _ hi => absurd hi (by omega), fun _ => by simpa using hp⟩

theorem Behind.unique (h : Behind p b x) (h' : Behind p b y) : x = y := by
  obtain ⟨hle, hall, hstop⟩ := h
  obtain ⟨hle', hall', hstop'⟩ := h'
  rcases lt_trichotomy x y with hlt | heq | hgt
  · have := hall' (b - x - 1) (by omega) (by omega)
    rw [hstop (by omega)] at this
    cases this
  · exact heq
  · have := hall (b - y - 1) (by omega) (by omega)
    rw [hstop' (by omega)] at this
    cases this

theorem Ahead.unique (h : Ahead p n b x) (h' : Ahead p n b y) : x = y := by
  obtain ⟨hle, hall, hstop⟩ := h
  obtain ⟨hle', hall', hstop'⟩ := h'
  rcases lt_trichotomy x y with hlt | heq | hgt
  · have := hall' (b + x) (by omega) (by omega)
    rw [hstop (by omega)] at this
    cases this
  · exact heq
  · have := hall (b + y) (by omega) (by omega)
    rw [hstop' (by omega)] at this
    cases this

theorem Behind.le_iff (h : Behind p b x) :
    y ≤ x ↔ y ≤ b ∧ ∀ i, b - y ≤ i → i < b → p i = true := by
  obtain ⟨hle, hall, hstop⟩ := h
  refine ⟨fun hy => ⟨by omega, fun i hi hib => hall i (by omega) hib⟩, fun ⟨hy, hy'⟩ => ?_⟩
  by_contra hlt
  have := hy' (b - x - 1) (by omega) (by omega)
  rw [hstop (by omega)] at this
  cases this

theorem Ahead.le_iff (h : Ahead p n b x) :
    y ≤ x ↔ b + y ≤ n ∧ ∀ i, b ≤ i → i < b + y → p i = true := by
  obtain ⟨hle, hall, hstop⟩ := h
  refine ⟨fun hy => ⟨by omega, fun i hi hib => hall i hi (by omega)⟩, fun ⟨hy, hy'⟩ => ?_⟩
  by_contra hlt
  have := hy' (b + x) (by omega) (by omega)
  rw [hstop (by omega)] at this
  cases this

/-- The position itself does not matter. -/
theorem Behind.update (h : Behind p b x) (v : Bool) : Behind (Function.update p b v) b x where
  le := h.le
  all i hi hib := by
    rw [Function.update_of_ne (by omega)]
    exact h.all i hi hib
  stop hlt := by
    rw [Function.update_of_ne (by omega)]
    exact h.stop hlt

theorem Ahead.update (h : Ahead p n (b + 1) x) (v : Bool) :
    Ahead (Function.update p b v) n (b + 1) x where
  le := h.le
  all i hi hib := by
    rw [Function.update_of_ne (by omega)]
    exact h.all i hi hib
  stop hlt := by
    rw [Function.update_of_ne (by omega)]
    exact h.stop hlt

/-! ### The change of one position -/

/-- The runs that the position `b` is not in. -/
def others (p : ℕ → Bool) (n b : ℕ) : Finset (ℕ × ℕ) :=
  (runs p n).filter fun r => ¬(r.1 ≤ b ∧ b < r.2)

section Take

variable (hb : b < n) (hp : p b = true) (hx : Behind p b x) (hy : Ahead p n (b + 1) y)

include hb hp hx hy

/-- The position is in one run, from the first position before it to the last one after it. -/
theorem runs_of_mem : runs p n = insert (b - x, b + 1 + y) (others p n b) := by
  obtain ⟨hxl, hxa, hxs⟩ := hx
  obtain ⟨hyl, hya, hys⟩ := hy
  ext ⟨s, e⟩
  simp only [mem_runs, isRun_iff, others, Finset.mem_insert, Finset.mem_filter, Prod.mk.injEq]
  constructor
  · rintro ⟨hlt, hle, hall, hl, hr⟩
    by_cases hin : s ≤ b ∧ b < e
    · left
      constructor
      · rcases lt_trichotomy s (b - x) with h | h | h
        · have := hall (b - x - 1) (by omega) (by omega)
          rw [hxs (by omega)] at this
          cases this
        · exact h
        · have := hxa (s - 1) (by omega) (by omega)
          rw [hl (by omega)] at this
          cases this
      · rcases lt_trichotomy e (b + 1 + y) with h | h | h
        · have := hya e (by omega) h
          rw [hr (by omega)] at this
          cases this
        · exact h
        · have := hall (b + 1 + y) (by omega) h
          rw [hys (by omega)] at this
          cases this
    · exact .inr ⟨⟨hlt, hle, hall, hl, hr⟩, hin⟩
  · rintro (⟨rfl, rfl⟩ | ⟨h, -⟩)
    · refine ⟨by omega, hyl, fun i hi hi' => ?_, fun h => hxs (by omega), hys⟩
      rcases lt_trichotomy i b with h | rfl | h
      · exact hxa i hi h
      · exact hp
      · exact hya i h hi'
    · exact h

/-- Without the position its run falls into the parts before and after it. -/
theorem runs_update : runs (Function.update p b false) n =
    others p n b ∪ ((if 0 < x then {(b - x, b)} else ∅) ∪ if 0 < y then {(b + 1, b + 1 + y)} else ∅) := by
  obtain ⟨hxl, hxa, hxs⟩ := hx
  obtain ⟨hyl, hya, hys⟩ := hy
  have hother : ∀ i, i ≠ b → Function.update p b false i = p i := fun i hi =>
    Function.update_of_ne hi _ _
  have hself : Function.update p b false b = false := Function.update_self _ _ _
  ext ⟨s, e⟩
  have hleft : (s, e) ∈ (if 0 < x then {(b - x, b)} else ∅ : Finset (ℕ × ℕ)) ↔
      0 < x ∧ s = b - x ∧ e = b := by
    split <;> simp_all
  have hright : (s, e) ∈ (if 0 < y then {(b + 1, b + 1 + y)} else ∅ : Finset (ℕ × ℕ)) ↔
      0 < y ∧ s = b + 1 ∧ e = b + 1 + y := by
    split <;> simp_all
  simp only [Finset.mem_union, hleft, hright, mem_runs, isRun_iff, others, Finset.mem_filter]
  generalize Function.update p b false = q at hother hself
  constructor
  · rintro ⟨hlt, hle, hall, hl, hr⟩
    have hout : ¬(s ≤ b ∧ b < e) := fun h => by
      have := hall b h.1 h.2
      rw [hself] at this
      cases this
    have hall' : ∀ i, s ≤ i → i < e → p i = true := fun i hi hi' => by
      rw [← hother i (by omega)]
      exact hall i hi hi'
    rcases lt_trichotomy e b with he | rfl | he
    · refine .inl ⟨⟨hlt, hle, hall', fun h => ?_, fun h => ?_⟩, hout⟩
      · rw [← hother _ (by omega)]
        exact hl h
      · rw [← hother _ (by omega)]
        exact hr h
    · refine .inr (.inl ?_)
      have hs : e - x ≤ s := by
        by_contra h
        have := hall' (e - x - 1) (by omega) (by omega)
        rw [hxs (by omega)] at this
        cases this
      have hs' : s ≤ e - x := by
        by_contra h
        have := hl (by omega)
        rw [hother _ (by omega), hxa (s - 1) (by omega) (by omega)] at this
        cases this
      omega
    · have hsb : b + 1 ≤ s := by omega
      rcases eq_or_lt_of_le hsb with rfl | hlt'
      · refine .inr (.inr ?_)
        have he₁ : e ≤ b + 1 + y := by
          by_contra h
          have := hall' (b + 1 + y) (by omega) (by omega)
          rw [hys (by omega)] at this
          cases this
        have he₂ : b + 1 + y ≤ e := by
          by_contra h
          have := hr (by omega)
          rw [hother _ (by omega), hya e (by omega) (by omega)] at this
          cases this
        omega
      · refine .inl ⟨⟨hlt, hle, hall', fun h => ?_, fun h => ?_⟩, hout⟩
        · rw [← hother _ (by omega)]
          exact hl h
        · rw [← hother _ (by omega)]
          exact hr h
  · rintro (⟨⟨hlt, hle, hall, hl, hr⟩, hout⟩ | ⟨hx₀, rfl, rfl⟩ | ⟨hy₀, rfl, rfl⟩)
    · have hne : e ≠ b := fun h => by
        subst h
        rw [hr hb] at hp
        cases hp
      have hne' : 0 < s → s - 1 ≠ b := fun h h' => by
        have := hl h
        rw [h', hp] at this
        cases this
      refine ⟨hlt, hle, fun i hi hi' => ?_, fun h => ?_, fun h => ?_⟩
      · rw [hother i (fun h => hout ⟨by omega, by omega⟩)]
        exact hall i hi hi'
      · rw [hother _ (hne' h)]
        exact hl h
      · rw [hother _ hne]
        exact hr h
    · refine ⟨by omega, by omega, fun i hi hi' => ?_, fun h => ?_, fun _ => hself⟩
      · rw [hother i (by omega)]
        exact hxa i hi hi'
      · rw [hother _ (by omega)]
        exact hxs (by omega)
    · refine ⟨by omega, hyl, fun i hi hi' => ?_, fun _ => hself, fun h => ?_⟩
      · rw [hother i (by omega)]
        exact hya i hi hi'
      · rw [hother _ (by omega)]
        exact hys h

/-- **One position is taken out**: its run goes, and the parts before and after it come, where there are
any. -/
theorem weight_take (f : ℕ → ℤ) :
    weight (Function.update p b false) n f =
      weight p n f - f (x + y + 1) + (if 0 < x then f x else 0) + (if 0 < y then f y else 0) := by
  have hxl := hx.le
  have hin : (b - x, b + 1 + y) ∉ others p n b := by
    simp only [others, Finset.mem_filter, not_and]
    omega
  have hrun : ∀ r ∈ others p n b, r.2 ≠ b ∧ r.1 ≠ b + 1 := fun r hr => by
    simp only [others, Finset.mem_filter, mem_runs] at hr
    refine ⟨fun h => ?_, fun h => ?_⟩
    · have := hr.1.right (h ▸ hb)
      rw [h, hp] at this
      cases this
    · have := hr.1.left (by omega)
      rw [h, show b + 1 - 1 = b by omega, hp] at this
      cases this
  have hold : weight p n f = f (x + y + 1) + ∑ r ∈ others p n b, f (r.2 - r.1) := by
    rw [weight, runs_of_mem hb hp hx hy, Finset.sum_insert hin]
    congr 2
    omega
  have hnew : weight (Function.update p b false) n f =
      (∑ r ∈ others p n b, f (r.2 - r.1)) +
        ((if 0 < x then f x else 0) + if 0 < y then f y else 0) := by
    rw [weight, runs_update hb hp hx hy, Finset.sum_union, Finset.sum_union]
    · congr 1
      congr 1
      · split <;> simp [Nat.sub_sub_self hxl]
      · split <;> simp
    · split <;> split <;> simp
      omega
    · rw [Finset.disjoint_left]
      intro r hr hr'
      have hne := hrun r hr
      simp only [Finset.mem_union] at hr'
      rcases hr' with h | h <;> split at h <;> simp at h <;> subst h <;> simp at hne
  rw [hold, hnew]
  abel

end Take

/-! ### A segment one position longer -/

theorem weight_succ_of_not (h : p n = false) (f : ℕ → ℤ) : weight p (n + 1) f = weight p n f := by
  unfold weight
  congr 1
  ext ⟨s, e⟩
  simp only [mem_runs, isRun_iff]
  constructor
  · rintro ⟨hlt, hle, hall, hl, hr⟩
    have hne : e ≠ n + 1 := fun he => by
      have := hall n (by omega) (by omega)
      rw [h] at this
      cases this
    exact ⟨hlt, by omega, hall, hl, fun he => hr (by omega)⟩
  · rintro ⟨hlt, hle, hall, hl, hr⟩
    refine ⟨hlt, by omega, hall, hl, fun he => ?_⟩
    rcases eq_or_ne e n with rfl | hne
    · exact h
    · exact hr (by omega)

/-- The run that ends at `n` grows by one. -/
theorem weight_succ (h : p n = true) (f : ℕ → ℤ) :
    weight p (n + 1) f =
      weight p n f + f (behind p n + 1) - (if 0 < behind p n then f (behind p n) else 0) := by
  have hy : Ahead p (n + 1) (n + 1) 0 := ⟨le_rfl, fun i _ _ => absurd ‹i < n + 1 + 0› (by omega), by omega⟩
  have htake := weight_take (Nat.lt_succ_self n) h (behind_spec p n) hy f
  have hkeep : weight (Function.update p n false) (n + 1) f = weight p n f := by
    rw [weight_succ_of_not (Function.update_self _ _ _)]
    exact weight_congr (fun i hi => Function.update_of_ne (by omega) _ _) f
  rw [hkeep] at htake
  simp only [Nat.add_zero, lt_irrefl, if_false] at htake
  rw [htake]
  abel

end MaxRuns
