import Ext2fs.Fsck.Ckinode

/-!
# Groups with a copy of the superblock

`cg_has_sb` grows three products in one loop until all of them are behind the group number.  The product
of sevens is multiplied on while the product of threes is still catching up, and both are of type `int`.

* `hasSbLoop` — the loop, in rounds, with the overflow of an `int` as an error;
* `Kext.cgHasSb`, `Compat.cgHasSb` — the copy of the kernel and the copy of the tools;
* `hasSbLoop_spec` — what the loop comes to from any of its rounds;
* `cg_has_sb_right_iff` — the group numbers for which both copies are right;
* `Fsck.cgHasSb_eq` — the products without a bound, as the layouts read them, agree up to there.
-/

namespace Ext2fs

/-- The product of two values of an `int`, an error where the type has no room for it. -/
def mulInt (a b : ℕ) : Except Unit ℕ := if a * b < 2 ^ 31 then .ok (a * b) else .error ()

/-- The loop of `cg_has_sb`, for at most `n` rounds; nothing when they do not suffice. -/
def hasSbLoop (i : ℕ) : ℕ → ℕ → ℕ → ℕ → Option (Except Unit ℕ)
  | 0, _, _, _ => none
  | n + 1, a3, a5, a7 =>
    if a3 ≤ i ∨ a5 ≤ i ∨ a7 ≤ i then
      if i = a3 ∨ i = a5 ∨ i = a7 then some (.ok 1)
      else
        match mulInt a3 3, mulInt a5 5, mulInt a7 7 with
        | .ok b3, .ok b5, .ok b7 => hasSbLoop i n b3 b5 b7
        | _, _, _ => some (.error ())
    else some (.ok 0)

/-- `cg_has_sb` of `ext2_alloc.c` -/
def Kext.cgHasSb (n i : ℕ) : Option (Except Unit ℕ) :=
  if i = 0 ∨ i = 1 then some (.ok 1) else hasSbLoop i n 3 5 7

/-- `cg_has_sb` of `ext2_compat.h` -/
def Compat.cgHasSb (n i : ℕ) : Option (Except Unit ℕ) :=
  if i = 0 ∨ i = 1 then some (.ok 1) else hasSbLoop i n 3 5 7

/-- The group number is one of the products of round `k`. -/
def IsProduct (i k : ℕ) : Prop := i = 3 ^ k ∨ i = 5 ^ k ∨ i = 7 ^ k

instance (i k : ℕ) : Decidable (IsProduct i k) := inferInstanceAs (Decidable (_ ∨ _ ∨ _))

/-- **Right about a group number**: after enough rounds both copies return the same value, without
overflow, and it is 1 for 0, 1 and the powers of 3, 5 and 7 only. -/
def HasSbRight (i : ℕ) : Prop :=
  ∃ N r, (∀ n, N ≤ n → Kext.cgHasSb n i = some (.ok r) ∧ Compat.cgHasSb n i = some (.ok r)) ∧
    (r = 1 ↔ i = 0 ∨ i = 1 ∨ ∃ k, IsProduct i k)

/-! ### The loop -/

theorem mulInt_pow {a k : ℕ} (h : a ^ (k + 1) < 2 ^ 31) : mulInt (a ^ k) a = .ok (a ^ (k + 1)) := by
  unfold mulInt
  rw [if_pos (by rwa [← pow_succ]), ← pow_succ]

/-- Where the product of threes is behind the group number, the other two are as well. -/
theorem round_done {i k : ℕ} (h : i < 3 ^ k) : ¬(3 ^ k ≤ i ∨ 5 ^ k ≤ i ∨ 7 ^ k ≤ i) := by
  have h5 : 3 ^ k ≤ 5 ^ k := Nat.pow_le_pow_left (by decide) k
  have h7 : 3 ^ k ≤ 7 ^ k := Nat.pow_le_pow_left (by decide) k
  omega

/-- One round that finds nothing and in which the products still have room. -/
theorem hasSbLoop_next {i k : ℕ} (n : ℕ) (hk : k < 11) (hle : 3 ^ k ≤ i) (hnot : ¬IsProduct i k) :
    hasSbLoop i (n + 1) (3 ^ k) (5 ^ k) (7 ^ k) =
      hasSbLoop i n (3 ^ (k + 1)) (5 ^ (k + 1)) (7 ^ (k + 1)) := by
  have h7 : 7 ^ (k + 1) < 2 ^ 31 :=
    Nat.lt_of_le_of_lt (Nat.pow_le_pow_right (by decide) (by omega : k + 1 ≤ 11)) (by decide)
  have h5 : 5 ^ (k + 1) < 2 ^ 31 :=
    Nat.lt_of_le_of_lt (Nat.pow_le_pow_left (by decide) (k + 1)) h7
  have h3 : 3 ^ (k + 1) < 2 ^ 31 :=
    Nat.lt_of_le_of_lt (Nat.pow_le_pow_left (by decide) (k + 1)) h7
  unfold IsProduct at hnot
  rw [hasSbLoop, if_pos (Or.inl hle), if_neg hnot, mulInt_pow h3, mulInt_pow h5, mulInt_pow h7]

/-- **The eleventh round** has no room for the next power of seven. -/
theorem hasSbLoop_overflows {i : ℕ} (n : ℕ) (hle : 3 ^ 11 ≤ i) (hnot : ¬IsProduct i 11) :
    hasSbLoop i (n + 1) (3 ^ 11) (5 ^ 11) (7 ^ 11) = some (.error ()) := by
  unfold IsProduct at hnot
  rw [hasSbLoop, if_pos (Or.inl hle), if_neg hnot]
  rfl

/-- A product of a round has at least the power of three in it. -/
theorem IsProduct.le {i k : ℕ} (h : IsProduct i k) : 3 ^ k ≤ i := by
  have h5 : 3 ^ k ≤ 5 ^ k := Nat.pow_le_pow_left (by decide) k
  have h7 : 3 ^ k ≤ 7 ^ k := Nat.pow_le_pow_left (by decide) k
  rcases h with rfl | rfl | rfl
  · exact Nat.le_refl _
  · exact h5
  · exact h7

/-- What is found from round `k` on is found in that round or in a later one. -/
theorem found_from {i k : ℕ} (hnot : ¬IsProduct i k) :
    (∃ j, k + 1 ≤ j ∧ j ≤ 11 ∧ IsProduct i j) ↔ ∃ j, k ≤ j ∧ j ≤ 11 ∧ IsProduct i j := by
  constructor
  · rintro ⟨j, hj, hj11, hp⟩
    exact ⟨j, by omega, hj11, hp⟩
  · rintro ⟨j, hj, hj11, hp⟩
    rcases Nat.eq_or_lt_of_le hj with rfl | hlt
    · exact absurd hp hnot
    · exact ⟨j, hlt, hj11, hp⟩

open Classical in
/-- **What the loop comes to** from round `k` on: it finds the group number among the products of the
rounds up to the eleventh, or it ends before, or the eleventh round overflows. -/
theorem hasSbLoop_spec (i : ℕ) {k n : ℕ} (hk : k ≤ 11) (hn : 12 - k ≤ n) :
    hasSbLoop i n (3 ^ k) (5 ^ k) (7 ^ k) =
      some (if ∃ j, k ≤ j ∧ j ≤ 11 ∧ IsProduct i j then .ok 1
        else if i < 3 ^ 11 then .ok 0 else .error ()) := by
  induction n generalizing k with
  | zero => omega
  | succ n ih =>
    by_cases hle : 3 ^ k ≤ i
    · by_cases hp : IsProduct i k
      · rw [if_pos ⟨k, Nat.le_refl k, hk, hp⟩, hasSbLoop, if_pos (Or.inl hle)]
        exact if_pos hp
      · rcases Nat.lt_or_ge k 11 with hlt | hge
        · rw [hasSbLoop_next n hlt hle hp, ih hlt (by omega)]
          simp only [found_from hp]
        · obtain rfl : k = 11 := Nat.le_antisymm hk hge
          rw [hasSbLoop_overflows n hle hp, if_neg, if_neg (Nat.not_lt.2 hle)]
          rintro ⟨j, hj, hj11, hpj⟩
          obtain rfl : j = 11 := Nat.le_antisymm hj11 hj
          exact hp hpj
    · have hlt : i < 3 ^ k := Nat.lt_of_not_le hle
      have hpow : 3 ^ k ≤ 3 ^ 11 := Nat.pow_le_pow_right (by decide) hk
      rw [hasSbLoop, if_neg (round_done hlt), if_neg, if_pos (Nat.lt_of_lt_of_le hlt hpow)]
      rintro ⟨j, hj, -, hpj⟩
      have hj3 : 3 ^ k ≤ 3 ^ j := Nat.pow_le_pow_right (by decide) hj
      have := hpj.le
      omega

/-! ### The two copies -/

open Classical in
/-- Twelve rounds are enough for every group number. -/
theorem hasSbLoop_start (i : ℕ) {n : ℕ} (hn : 11 ≤ n) :
    hasSbLoop i n 3 5 7 =
      some (if ∃ j, 1 ≤ j ∧ j ≤ 11 ∧ IsProduct i j then .ok 1
        else if i < 3 ^ 11 then .ok 0 else .error ()) := hasSbLoop_spec i (k := 1) (by decide) hn

/-- A group number below the eleventh power of three is met in the first eleven rounds or never. -/
theorem product_round {i j : ℕ} (hi : i < 3 ^ 11) (h : IsProduct i j) : j ≤ 11 := by
  by_contra hj
  have hpow : 3 ^ 11 ≤ 3 ^ j := Nat.pow_le_pow_right (by decide) (by omega)
  have := h.le
  omega

/-- Round 0 has the group number 1 only. -/
theorem isProduct_zero {i : ℕ} : IsProduct i 0 ↔ i = 1 := by simp [IsProduct]

/-- A power other than 1 below the eleventh power of three is met by the loop. -/
theorem found_of_product {i k : ℕ} (h1 : i ≠ 1) (hi : i < 3 ^ 11) (h : IsProduct i k) :
    ∃ j, 1 ≤ j ∧ j ≤ 11 ∧ IsProduct i j := by
  refine ⟨k, Nat.one_le_iff_ne_zero.2 ?_, product_round hi h, h⟩
  rintro rfl
  exact h1 (isProduct_zero.1 h)

open Classical in
/-- What both copies come to when they run the loop. -/
theorem copies_eq {i n : ℕ} (h01 : ¬(i = 0 ∨ i = 1)) (hn : 11 ≤ n) {x : Except Unit ℕ}
    (hx : (if ∃ j, 1 ≤ j ∧ j ≤ 11 ∧ IsProduct i j then .ok 1
      else if i < 3 ^ 11 then .ok 0 else .error ()) = x) :
    Kext.cgHasSb n i = some x ∧ Compat.cgHasSb n i = some x := by
  have hloop : hasSbLoop i n 3 5 7 = some x := by rw [hasSbLoop_start i hn, hx]
  unfold Kext.cgHasSb Compat.cgHasSb
  rw [if_neg h01, hloop]
  exact ⟨rfl, rfl⟩

/-- The two group numbers that are told apart before the loop. -/
theorem right_of_first {i : ℕ} (h : i = 0 ∨ i = 1) : HasSbRight i :=
  ⟨0, 1, fun _ _ => ⟨if_pos h, if_pos h⟩, iff_of_true rfl (h.imp_right Or.inl)⟩

theorem right_of_found {i : ℕ} (h01 : ¬(i = 0 ∨ i = 1))
    (hf : ∃ j, 1 ≤ j ∧ j ≤ 11 ∧ IsProduct i j) : HasSbRight i := by
  refine ⟨11, 1, fun n hn => copies_eq h01 hn (if_pos hf), iff_of_true rfl ?_⟩
  obtain ⟨j, -, -, hj⟩ := hf
  exact Or.inr (Or.inr ⟨j, hj⟩)

theorem right_of_lt {i : ℕ} (h01 : ¬(i = 0 ∨ i = 1))
    (hf : ¬∃ j, 1 ≤ j ∧ j ≤ 11 ∧ IsProduct i j) (hi : i < 3 ^ 11) : HasSbRight i := by
  refine ⟨11, 0, fun n hn => copies_eq h01 hn (by rw [if_neg hf, if_pos hi]), iff_of_false ?_ ?_⟩
  · exact Nat.zero_ne_one
  · rintro (h | h | ⟨k, hk⟩)
    · exact h01 (Or.inl h)
    · exact h01 (Or.inr h)
    · exact hf (found_of_product (fun h => h01 (Or.inr h)) hi hk)

/-- From the eleventh power of three on, what the first eleven rounds do not meet overflows. -/
theorem not_right_of_ge {i : ℕ} (hf : ¬∃ j, 1 ≤ j ∧ j ≤ 11 ∧ IsProduct i j) (hi : 3 ^ 11 ≤ i) :
    ¬HasSbRight i := by
  rintro ⟨N, r, hrun, -⟩
  have h01 : ¬(i = 0 ∨ i = 1) := by omega
  have herr := copies_eq h01 (Nat.le_max_right N 11) (if_neg hf)
  rw [if_neg (Nat.not_lt.2 hi)] at herr
  have hok := (hrun (max N 11) (Nat.le_max_left N 11)).1
  rw [herr.1] at hok
  cases hok

/-- **Both copies of `cg_has_sb` are right** exactly for the group numbers below the eleventh power of
three and the powers that one of the first eleven rounds meets. -/
theorem cg_has_sb_right_iff (i : ℕ) :
    HasSbRight i ↔ i < 3 ^ 11 ∨ ∃ j, j ≤ 11 ∧ IsProduct i j := by
  by_cases h01 : i = 0 ∨ i = 1
  · exact iff_of_true (right_of_first h01) (Or.inl (by omega))
  by_cases hf : ∃ j, 1 ≤ j ∧ j ≤ 11 ∧ IsProduct i j
  · refine iff_of_true (right_of_found h01 hf) (Or.inr ?_)
    obtain ⟨j, -, hj, hp⟩ := hf
    exact ⟨j, hj, hp⟩
  rcases Nat.lt_or_ge i (3 ^ 11) with hlt | hge
  · exact iff_of_true (right_of_lt h01 hf hlt) (Or.inl hlt)
  · refine iff_of_false (not_right_of_ge hf hge) ?_
    rintro (hlt | ⟨j, hj, hp⟩)
    · omega
    · refine hf ⟨j, Nat.one_le_iff_ne_zero.2 ?_, hj, hp⟩
      rintro rfl
      exact h01 (Or.inr (isProduct_zero.1 hp))

/-- **The group behind the eleventh power of three** makes both copies overflow. -/
theorem cg_has_sb_overflows : ¬HasSbRight 177148 := by
  refine not_right_of_ge ?_ (by decide)
  rintro ⟨j, hj, hj11, hp⟩
  interval_cases j <;> simp [IsProduct] at hp

/-! ### The products without a bound -/

/-- The loop over natural numbers finds the products of the rounds it has. -/
theorem Fsck.cgHasSbLoop_spec (i n k : ℕ) :
    Fsck.cgHasSbLoop i n (3 ^ k) (5 ^ k) (7 ^ k) = true ↔ ∃ j, k ≤ j ∧ j < k + n ∧ IsProduct i j := by
  induction n generalizing k with
  | zero =>
    refine iff_of_false Bool.false_ne_true ?_
    rintro ⟨j, hj, hlt, -⟩
    omega
  | succ n ih =>
    unfold Fsck.cgHasSbLoop
    by_cases hle : 3 ^ k ≤ i
    · rw [if_pos (Or.inl hle)]
      by_cases hp : IsProduct i k
      · exact iff_of_true (if_pos hp) ⟨k, Nat.le_refl k, by omega, hp⟩
      · rw [if_neg (show ¬(i = 3 ^ k ∨ i = 5 ^ k ∨ i = 7 ^ k) from hp), ← pow_succ, ← pow_succ,
          ← pow_succ, ih]
        constructor
        · rintro ⟨j, hj, hlt, hpj⟩
          exact ⟨j, by omega, by omega, hpj⟩
        · rintro ⟨j, hj, hlt, hpj⟩
          rcases Nat.eq_or_lt_of_le hj with rfl | hkj
          · exact absurd hpj hp
          · exact ⟨j, hkj, by omega, hpj⟩
    · rw [if_neg (round_done (Nat.lt_of_not_le hle))]
      refine iff_of_false Bool.false_ne_true ?_
      rintro ⟨j, hj, -, hpj⟩
      have hpow : 3 ^ k ≤ 3 ^ j := Nat.pow_le_pow_right (by decide) hj
      have := hpj.le
      omega

/-- **Without a bound on the products** the answer is right for every group number of an `int`, and so
it is the answer of both copies wherever they are right. -/
theorem Fsck.cgHasSb_eq {i : ℕ} (hi : i < 2 ^ 31) :
    Fsck.cgHasSb i = true ↔ i = 0 ∨ i = 1 ∨ ∃ k, IsProduct i k := by
  by_cases h01 : i = 0 ∨ i = 1
  · exact iff_of_true (if_pos h01) (h01.imp_right Or.inl)
  · unfold Fsck.cgHasSb
    rw [if_neg h01, show (3 : ℕ) = 3 ^ 1 from rfl, show (5 : ℕ) = 5 ^ 1 from rfl,
      show (7 : ℕ) = 7 ^ 1 from rfl, Fsck.cgHasSbLoop_spec]
    constructor
    · rintro ⟨j, -, -, hp⟩
      exact Or.inr (Or.inr ⟨j, hp⟩)
    · rintro (h | h | ⟨k, hk⟩)
      · exact absurd (Or.inl h) h01
      · exact absurd (Or.inr h) h01
      · refine ⟨k, Nat.one_le_iff_ne_zero.2 ?_, ?_, hk⟩
        · rintro rfl
          exact h01 (Or.inr (isProduct_zero.1 hk))
        · by_contra hge
          have hpow : 3 ^ 21 ≤ 3 ^ k := Nat.pow_le_pow_right (by decide) (by omega)
          have := hk.le
          omega

end Ext2fs
