import Ext2fs.Lib.PtrTree

/-!
# The places of a pointer tree

A tree whose first data block has the logical number `s` has a place for each of its blocks.  The place
of a data block is its logical number; a pointer block that begins at `s` and has height `h` above the
data has the place `-(s + h - 1)`, which no other one has.

* `places` — the places that hold a pointer and serve a logical number below `n`, in the order of a walk
  that comes to a pointer block before what is below it;
* `pathPlaces` — the places on the way to one logical number;
* `mem_places` — the former are the latter, over all logical numbers;
* `places_nodup` — no place is there twice.
-/

namespace PtrTree

variable (N : ℕ) (st : Store)

/-- The places of the tree of height `h` at `p`, with what they hold. -/
def places : ℕ → ℕ → ℕ → ℕ → List (ℤ × ℕ)
  | 0, s, n, p => if s < n ∧ p ≠ 0 then [((s : ℤ), p)] else []
  | h + 1, s, n, p =>
    if s < n ∧ p ≠ 0 then
      (-((s : ℤ) + h), p) :: (List.range N).flatMap fun i => places h (s + i * N ^ h) n (st p i)
    else []

/-- The places on the way to the block at offset `off`, up to the first null pointer. -/
def pathPlaces : ℕ → ℕ → ℕ → ℕ → List (ℤ × ℕ)
  | 0, s, p, _ => [((s : ℤ), p)]
  | h + 1, s, p, off =>
    (-((s : ℤ) + h), p) ::
      if p = 0 then [] else pathPlaces h (s + off / N ^ h * N ^ h) (st p (off / N ^ h)) (off % N ^ h)

variable {N} {st} {h s n p off : ℕ} {x : ℤ × ℕ}

theorem places_of_not (hp : ¬(s < n ∧ p ≠ 0)) : places N st h s n p = [] := by
  cases h with
  | zero => exact if_neg hp
  | succ h => exact if_neg hp

/-- **The places are those on the ways** to the logical numbers below `n`. -/
theorem mem_places (hN : 0 < N) :
    x ∈ places N st h s n p ↔
      x.2 ≠ 0 ∧ ∃ off < N ^ h, s + off < n ∧ x ∈ pathPlaces N st h s p off := by
  induction h generalizing s p with
  | zero =>
    rw [places, pow_zero]
    constructor
    · intro hx
      split at hx
      next hc =>
        rw [List.mem_singleton] at hx
        subst hx
        exact ⟨hc.2, 0, Nat.zero_lt_one, hc.1, List.mem_singleton.2 rfl⟩
      next => exact absurd hx List.not_mem_nil
    · rintro ⟨hne, off, hoff, hlt, hx⟩
      rw [pathPlaces, List.mem_singleton] at hx
      subst hx
      rw [if_pos ⟨by omega, hne⟩]
      exact List.mem_singleton.2 rfl
  | succ h ih =>
    have hpow : 0 < N ^ h := pow_pos hN h
    rw [places]
    constructor
    · intro hx
      split at hx
      next hc =>
        rcases List.mem_cons.1 hx with rfl | hx
        · exact ⟨hc.2, 0, pow_pos hN _, hc.1, List.mem_cons_self ..⟩
        · obtain ⟨i, hi, hx⟩ := List.mem_flatMap.1 hx
          obtain ⟨hne, off, hoff, hlt, hmem⟩ := ih.1 hx
          have hiN : i < N := List.mem_range.1 hi
          have hdiv : (i * N ^ h + off) / N ^ h = i := by
            rw [Nat.mul_comm, Nat.mul_add_div hpow, Nat.div_eq_of_lt hoff, Nat.add_zero]
          have hmod : (i * N ^ h + off) % N ^ h = off := by
            rw [Nat.mul_comm, Nat.mul_add_mod, Nat.mod_eq_of_lt hoff]
          refine ⟨hne, i * N ^ h + off, ?_, by omega, List.mem_cons_of_mem _ ?_⟩
          · calc i * N ^ h + off < i * N ^ h + N ^ h := by omega
              _ = (i + 1) * N ^ h := by ring
              _ ≤ N * N ^ h := Nat.mul_le_mul_right _ hiN
              _ = N ^ (h + 1) := by ring
          · rw [if_neg hc.2, hdiv, hmod]
            exact hmem
      next => exact absurd hx List.not_mem_nil
    · rintro ⟨hne, off, hoff, hlt, hx⟩
      rcases List.mem_cons.1 hx with rfl | hx
      · rw [if_pos ⟨by omega, hne⟩]
        exact List.mem_cons_self ..
      · by_cases hp : p = 0
        · rw [if_pos hp] at hx
          exact absurd hx List.not_mem_nil
        · rw [if_neg hp] at hx
          rw [if_pos ⟨by omega, hp⟩]
          refine List.mem_cons_of_mem _ (List.mem_flatMap.2 ⟨off / N ^ h, ?_, ?_⟩)
          · exact List.mem_range.2 (div_lt_of_lt_pow hN hoff)
          · have hsum := Nat.div_add_mod off (N ^ h)
            rw [Nat.mul_comm] at hsum
            exact ih.2 ⟨hne, off % N ^ h, Nat.mod_lt _ hpow, by omega, hx⟩

/-- Where the places of a tree lie. -/
theorem places_range (hN : 1 < N) (hs : h ≠ 0 → 0 < s) (hx : x ∈ places N st h s n p) :
    (0 ≤ x.1 → (s : ℤ) ≤ x.1 ∧ x.1 < (s + N ^ h : ℕ)) ∧
    (x.1 < 0 → ∃ m h', h' < h ∧ x.1 = -((s + N * m + h' : ℕ) : ℤ) ∧ s + N * m + h' < s + N ^ h) := by
  induction h generalizing s p with
  | zero =>
    rw [places] at hx
    split at hx
    next hc =>
      rw [List.mem_singleton] at hx
      subst hx
      rw [pow_zero]
      exact ⟨fun _ => ⟨le_refl _, by push_cast; omega⟩, fun hneg => absurd hneg (by simp)⟩
    next => exact absurd hx List.not_mem_nil
  | succ h ih =>
    have hs' := hs (Nat.succ_ne_zero h)
    rw [places] at hx
    split at hx
    next hc =>
      rcases List.mem_cons.1 hx with rfl | hx
      · refine ⟨fun hpos => ?_, fun _ => ⟨0, h, Nat.lt_succ_self h, ?_, ?_⟩⟩
        · exfalso
          have hpos' : (0 : ℤ) ≤ -((s : ℤ) + h) := hpos
          omega
        · show -((s : ℤ) + h) = _
          push_cast
          ring
        · have hlt : h < N ^ (h + 1) := (Nat.lt_pow_self hN).trans_le
            (Nat.pow_le_pow_right (by omega) (Nat.le_succ h))
          omega
      · obtain ⟨i, hi, hx⟩ := List.mem_flatMap.1 hx
        have hiN : i < N := List.mem_range.1 hi
        have hle : i * N ^ h + N ^ h ≤ N ^ (h + 1) :=
          calc i * N ^ h + N ^ h = (i + 1) * N ^ h := by ring
            _ ≤ N * N ^ h := Nat.mul_le_mul_right _ hiN
            _ = N ^ (h + 1) := by ring
        obtain ⟨hdata, hptr⟩ := ih (fun _ => by omega) hx
        refine ⟨fun hpos => ?_, fun hneg => ?_⟩
        · obtain ⟨h1, h2⟩ := hdata hpos
          push_cast at h1 h2 ⊢
          have hcast : ((i * N ^ h + N ^ h : ℕ) : ℤ) ≤ ((N ^ (h + 1) : ℕ) : ℤ) := by exact_mod_cast hle
          have hnn : (0 : ℤ) ≤ (i : ℤ) * (N : ℤ) ^ h := by positivity
          push_cast at hcast
          omega
        · obtain ⟨m, h', hh, hkey, hlt⟩ := hptr hneg
          -- the height above the data is positive, so the children lie `N` apart
          obtain ⟨k, rfl⟩ : ∃ k, h = k + 1 := ⟨h - 1, by omega⟩
          refine ⟨i * N ^ k + m, h', by omega, ?_, ?_⟩
          · rw [hkey]
            congr 2
            ring
          · have heq : s + N * (i * N ^ k + m) + h' = s + i * N ^ (k + 1) + N * m + h' := by ring
            omega
    next => exact absurd hx List.not_mem_nil

/-- **No place is there twice.** -/
theorem places_nodup (hN : h < N) (hN' : 1 < N) (hs : h ≠ 0 → 0 < s) : (places N st h s n p).Nodup := by
  induction h generalizing s p with
  | zero =>
    rw [places]
    split
    · exact List.nodup_singleton _
    · exact List.nodup_nil
  | succ h ih =>
    have hs' := hs (Nat.succ_ne_zero h)
    rw [places]
    split
    next hc =>
      refine List.nodup_cons.2 ⟨fun hx => ?_, List.nodup_flatMap.2 ⟨fun i _ => ?_, ?_⟩⟩
      · -- the root is at no place below it: those are apart from `s` by multiples of `N`
        obtain ⟨i, hi, hx⟩ := List.mem_flatMap.1 hx
        have hneg : (-((s : ℤ) + h) : ℤ) < 0 := by omega
        obtain ⟨m, h', hh, hkey, -⟩ := (places_range hN' (fun _ => by omega) hx).2 hneg
        obtain ⟨k, rfl⟩ : ∃ k, h = k + 1 := ⟨h - 1, by omega⟩
        have hsum : (N : ℕ) * (i * N ^ k + m) + h' = k + 1 := by
          have hcast : ((s : ℤ) + (k + 1 : ℕ)) = ((s + i * N ^ (k + 1) + N * m + h' : ℕ) : ℤ) := by
            linarith
          have hnat : s + (k + 1) = s + i * N ^ (k + 1) + N * m + h' := by exact_mod_cast hcast
          have hring : N * (i * N ^ k + m) = i * N ^ (k + 1) + N * m := by ring
          omega
        rcases Nat.eq_zero_or_pos (i * N ^ k + m) with hzero | hpos
        · rw [hzero] at hsum
          omega
        · have hge : N ≤ N * (i * N ^ k + m) := Nat.le_mul_of_pos_right N hpos
          omega
      · exact ih (by omega) fun _ => by omega
      · refine List.nodup_range.imp fun {i j} hij => ?_
        refine List.disjoint_left.2 fun x hxi hxj => ?_
        have hpow : 0 < N ^ h := pow_pos (by omega) h
        have hri := places_range hN' (fun _ => by omega) hxi
        have hrj := places_range hN' (fun _ => by omega) hxj
        have hstep : ∀ a b : ℕ, a < b → a * N ^ h + N ^ h ≤ b * N ^ h := fun a b hab =>
          calc a * N ^ h + N ^ h = (a + 1) * N ^ h := by ring
            _ ≤ b * N ^ h := Nat.mul_le_mul_right _ hab
        have hapart : s + i * N ^ h + N ^ h ≤ s + j * N ^ h ∨ s + j * N ^ h + N ^ h ≤ s + i * N ^ h := by
          rcases Nat.lt_or_gt_of_ne hij with hlt | hlt
          · left
            have := hstep i j hlt
            omega
          · right
            have := hstep j i hlt
            omega
        by_cases hsign : 0 ≤ x.1
        · obtain ⟨a1, a2⟩ := hri.1 hsign
          obtain ⟨b1, b2⟩ := hrj.1 hsign
          omega
        · obtain ⟨m, a, -, hkey, hlt⟩ := hri.2 (by omega)
          obtain ⟨m', a', -, hkey', hlt'⟩ := hrj.2 (by omega)
          have hsame : s + i * N ^ h + N * m + a = s + j * N ^ h + N * m' + a' := by
            have hcast : ((s + i * N ^ h + N * m + a : ℕ) : ℤ) = ((s + j * N ^ h + N * m' + a' : ℕ) : ℤ) := by
              linarith
            exact_mod_cast hcast
          omega
    next => exact List.nodup_nil

end PtrTree
