import Ext2fs.AllocLock
import Ext2fs.SbGroups

/-!
# The groups `ext2_hashalloc` tries

The function counts groups in an `int`, and reads `e2fs_gcount`, which is unsigned, as one.  Its three
phases are followed here with the overflow of an `int` as an error, and with the calls it makes.

* `IntHash.ext2Hashalloc` — the function, for any allocator;
* `IntHash.hashalloc_eq` — up to 2^30 groups it tries the groups of `hashGroups` in their order;
* `mem_hashGroups` — which are all of them;
* `IntHash.hashalloc_right_iff` — the group counts for which it tries groups of the volume only, ends,
  and returns 0 exactly when none has anything.
-/

namespace Ext2fs

/-! ### All groups -/

theorem bruteGroups_lt {gcount rounds s c : ℕ} (hs : s < gcount)
    (hc : c ∈ bruteGroups gcount rounds s) : c < gcount := by
  induction rounds generalizing s with
  | zero => cases hc
  | succ rounds ih =>
    rcases List.mem_cons.1 hc with rfl | hc
    · exact hs
    · refine ih ?_ hc
      by_cases h : s + 1 = gcount
      · rw [if_pos h]
        omega
      · rw [if_neg h]
        omega

/-- The brute force search goes through the groups one by one and wraps around. -/
theorem mem_bruteGroups {gcount rounds s k : ℕ} (hs : s < gcount) (hk : k < rounds) :
    (s + k) % gcount ∈ bruteGroups gcount rounds s := by
  induction rounds generalizing s k with
  | zero => omega
  | succ rounds ih =>
    refine List.mem_cons.2 ?_
    cases k with
    | zero => exact Or.inl (Nat.mod_eq_of_lt hs)
    | succ k =>
      right
      by_cases h : s + 1 = gcount
      · have hin := ih (s := 0) (k := k) (by omega) (by omega)
        rw [if_pos h]
        rwa [show s + (k + 1) = gcount + (0 + k) by omega, Nat.add_mod_left]
      · have hin := ih (s := s + 1) (k := k) (by omega) (by omega)
        rw [if_neg h]
        rwa [show s + (k + 1) = s + 1 + k by omega]

theorem rehashGroups_lt {gcount i cg c : ℕ} (hcg : cg < gcount) (hc : c ∈ rehashGroups gcount i cg) :
    c < gcount := by
  fun_induction rehashGroups gcount i cg with
  | case1 i cg h next ih =>
    have hnext : next < gcount := by
      simp only [next]
      split <;> omega
    rcases List.mem_cons.1 hc with rfl | hc
    · exact hnext
    · exact ih hnext hc
  | case2 => cases hc

/-- **The rehash always tries the next group.** -/
theorem next_mem_rehashGroups {gcount cg : ℕ} (hcg : cg < gcount) (h : 1 < gcount) :
    (cg + 1) % gcount ∈ rehashGroups gcount 1 cg := by
  rw [rehashGroups, if_pos ⟨Nat.one_pos, h⟩]
  refine List.mem_cons.2 (Or.inl ?_)
  by_cases hle : gcount ≤ cg + 1
  · obtain rfl : gcount = cg + 1 := by omega
    rw [Nat.mod_self, if_pos hle, Nat.sub_self]
  · rw [if_neg hle, Nat.mod_eq_of_lt (by omega)]

theorem hashGroups_lt {gcount cg c : ℕ} (hcg : cg < gcount) (hc : c ∈ hashGroups gcount cg) :
    c < gcount := by
  rcases List.mem_append.1 hc with hc | hc
  · exact rehashGroups_lt hcg hc
  · exact bruteGroups_lt (Nat.mod_lt _ (by omega)) hc

/-- **Every group is tried**: the preferred one first, the next one by the rehash, and the others by
the brute force search, which begins two groups behind the preferred one. -/
theorem mem_hashGroups {gcount cg c : ℕ} (hcg : cg < gcount) (hc : c < gcount) :
    c ∈ cg :: hashGroups gcount cg := by
  -- the distance from the preferred group, going up and around
  obtain ⟨d, hd, rfl⟩ : ∃ d, d < gcount ∧ (cg + d) % gcount = c := by
    rcases Nat.lt_or_ge c cg with hlt | hge
    · refine ⟨c + gcount - cg, by omega, ?_⟩
      rw [show cg + (c + gcount - cg) = c + gcount by omega, Nat.add_mod_right, Nat.mod_eq_of_lt hc]
    · refine ⟨c - cg, by omega, ?_⟩
      rw [show cg + (c - cg) = c by omega, Nat.mod_eq_of_lt hc]
  rcases Nat.lt_or_ge d 2 with hsmall | hlarge
  · rcases Nat.eq_zero_or_pos d with rfl | hpos
    · exact List.mem_cons.2 (Or.inl (Nat.mod_eq_of_lt hcg))
    · obtain rfl : d = 1 := by omega
      exact List.mem_cons_of_mem cg (List.mem_append_left _ (next_mem_rehashGroups hcg hd))
  · refine List.mem_cons_of_mem cg (List.mem_append_right _ ?_)
    have hin : ((cg + 2) % gcount + (d - 2)) % gcount ∈
        bruteGroups gcount (gcount - 2) ((cg + 2) % gcount) :=
      mem_bruteGroups (Nat.mod_lt _ (by omega)) (by omega)
    rwa [Nat.mod_add_mod, show cg + 2 + (d - 2) = cg + d by omega] at hin

/-! ### The function in `int` -/

namespace IntHash

/-- The sum of two values of an `int`, an error where the type has no room for it. -/
def addInt (a b : ℕ) : Except Unit ℕ := if a + b < 2 ^ 31 then .ok (a + b) else .error ()

/-- What a search over the groups does: the groups the allocator is called with, and the value that is
returned, an overflow, or nothing when the rounds do not suffice. -/
structure Search where
  calls : List ℕ
  result : Option (Except Unit ℕ)

/-- One call of the allocator; without a hit the search goes on. -/
def call (allocator : ℕ → ℤ → ℕ) (cg : ℕ) (pref : ℤ) (rest : Search) : Search :=
  if allocator cg pref ≠ 0 then ⟨[cg], some (.ok (allocator cg pref))⟩
  else ⟨cg :: rest.calls, rest.result⟩

/-- Undefined behaviour ends the search. -/
def overflow : Search := ⟨[], some (.error ())⟩

variable (allocator : ℕ → ℤ → ℕ) (gcount : ℕ)

/-- The brute force search, `rounds` groups from `cg` on. -/
def brute : ℕ → ℕ → Search
  | 0, _ => ⟨[], some (.ok 0)⟩
  | rounds + 1, cg =>
      call allocator cg 0 (brute rounds (if ((cg + 1 : ℕ) : ℤ) = i32 gcount then 0 else cg + 1))

/-- What comes behind the rehash: `cg = (icg + 2) % fs->e2fs_gcount` and the loop from 2 on. -/
def sweep (icg : ℕ) : Search :=
  match addInt icg 2 with
  | .error _ => overflow
  | .ok s => brute allocator gcount (i32 gcount - 2).toNat (s % gcount)

/-- The quadratic rehash, for at most `n` rounds, and what comes behind it. -/
def rehash (icg : ℕ) : ℕ → ℕ → ℕ → Search
  | 0, _, _ => ⟨[], none⟩
  | n + 1, i, cg =>
    if (i : ℤ) < i32 gcount then
      match addInt cg i with
      | .error _ => overflow
      | .ok s =>
        let cg := if i32 gcount ≤ s then s - gcount else s
        call allocator cg 0
          (match mulInt i 2 with
          | .error _ => overflow
          | .ok i => rehash icg n i cg)
    else sweep allocator gcount icg

/-- `ext2_hashalloc` -/
def ext2Hashalloc (n cg : ℕ) (pref : ℤ) : Search :=
  call allocator cg pref (rehash allocator gcount cg n 1 cg)

/-- Whether there is something in a group does not depend on the preference. -/
def ByGroup (allocator : ℕ → ℤ → ℕ) : Prop := ∀ c p q, allocator c p = 0 ↔ allocator c q = 0

/-- **Right for a group count and a preferred group**: for every allocator the function ends, calls it
with groups of the volume only, and returns 0 exactly when it has nothing in any of them. -/
def HashallocRight (gcount cg : ℕ) : Prop :=
  ∀ (allocator : ℕ → ℤ → ℕ) (pref : ℤ), ByGroup allocator →
    ∃ N calls r, (∀ n, N ≤ n → ext2Hashalloc allocator gcount n cg pref = ⟨calls, some (.ok r)⟩) ∧
      (∀ c ∈ calls, c < gcount) ∧ (r = 0 ↔ ∀ c < gcount, allocator c pref = 0)

/-! ### Without overflow -/

/-- The calls for a list of groups. -/
def callAll : List ℕ → Search
  | [] => ⟨[], some (.ok 0)⟩
  | c :: cs => call allocator c 0 (callAll cs)

/-- The calls for a list end, stay in it, and find nothing exactly when there is nothing. -/
theorem callAll_spec (cs : List ℕ) :
    ∃ calls r, callAll allocator cs = ⟨calls, some (.ok r)⟩ ∧ (∀ c ∈ calls, c ∈ cs) ∧
      (r = 0 ↔ ∀ c ∈ cs, allocator c 0 = 0) := by
  induction cs with
  | nil => exact ⟨[], 0, rfl, fun c hc => hc, iff_of_true rfl fun c hc => by cases hc⟩
  | cons c cs ih =>
    obtain ⟨calls, r, heq, hin, hzero⟩ := ih
    unfold callAll call
    by_cases h : allocator c 0 = 0
    · rw [if_neg (not_not.2 h), heq]
      refine ⟨c :: calls, r, rfl, fun d hd => ?_, ?_⟩
      · rcases List.mem_cons.1 hd with rfl | hd
        · exact List.mem_cons_self
        · exact List.mem_cons_of_mem c (hin d hd)
      · rw [hzero, List.forall_mem_cons, and_iff_right h]
    · rw [if_pos h]
      refine ⟨[c], allocator c 0, rfl, fun d hd => ?_, iff_of_false h fun hall => ?_⟩
      · rw [List.mem_singleton.1 hd]
        exact List.mem_cons_self
      · exact h (hall c List.mem_cons_self)

variable {allocator gcount}

theorem i32_gcount (hg : gcount ≤ 2 ^ 30) : i32 gcount = gcount := i32_of_lt (by omega) (by omega)

theorem brute_eq (hg : gcount ≤ 2 ^ 30) (rounds cg : ℕ) :
    brute allocator gcount rounds cg = callAll allocator (bruteGroups gcount rounds cg) := by
  induction rounds generalizing cg with
  | zero => rfl
  | succ rounds ih =>
    have hwrap : (((cg + 1 : ℕ) : ℤ) = i32 gcount) = (cg + 1 = gcount) := by
      rw [i32_gcount hg, Nat.cast_inj]
    simp only [brute, bruteGroups, callAll, hwrap, ih]

theorem sweep_eq (hg : gcount ≤ 2 ^ 30) {icg : ℕ} (hicg : icg < gcount) :
    sweep allocator gcount icg =
      callAll allocator (bruteGroups gcount (gcount - 2) ((icg + 2) % gcount)) := by
  have hadd : addInt icg 2 = .ok (icg + 2) := if_pos (by omega)
  have hrounds : (i32 gcount - 2).toNat = gcount - 2 := by
    rw [i32_gcount hg]
    omega
  unfold sweep
  rw [hadd, hrounds]
  exact brute_eq hg _ _

/-- The rehash ends when its step is not below the group count. -/
theorem rehash_end (hg : gcount ≤ 2 ^ 30) {icg cg i : ℕ} (n : ℕ) (hicg : icg < gcount)
    (hle : gcount ≤ i) :
    rehash allocator gcount icg (n + 1) i cg =
      callAll allocator (rehashGroups gcount i cg ++
        bruteGroups gcount (gcount - 2) ((icg + 2) % gcount)) := by
  have hnot : ¬((i : ℤ) < i32 gcount) := by
    rw [i32_gcount hg]
    omega
  rw [rehash, if_neg hnot, sweep_eq hg hicg, rehashGroups, if_neg (by omega), List.nil_append]

/-- **The rehash** doubles its step until it is not below the group count, and up to 2^30 groups no
`int` overflows on the way. -/
theorem rehash_eq (hg : gcount ≤ 2 ^ 30) {icg cg i n : ℕ} (hicg : icg < gcount) (hcg : cg < gcount)
    (hi : 0 < i) (hn : gcount ≤ 2 ^ n * i) :
    rehash allocator gcount icg (n + 1) i cg =
      callAll allocator (rehashGroups gcount i cg ++
        bruteGroups gcount (gcount - 2) ((icg + 2) % gcount)) := by
  induction n generalizing i cg with
  | zero => exact rehash_end hg 0 hicg (by omega)
  | succ n ih =>
    rcases Nat.lt_or_ge i gcount with hlt | hge
    · have hlt' : (i : ℤ) < i32 gcount := by
        rw [i32_gcount hg]
        omega
      have hadd : addInt cg i = .ok (cg + i) := if_pos (by omega)
      have hmul : mulInt i 2 = .ok (i * 2) := if_pos (by omega)
      have hwrap : (i32 gcount ≤ ((cg + i : ℕ) : ℤ)) = (gcount ≤ cg + i) := by
        rw [i32_gcount hg, Nat.cast_le]
      have hnext : (if gcount ≤ cg + i then cg + i - gcount else cg + i) < gcount := by
        split <;> omega
      rw [rehash, if_pos hlt', hadd, hmul, rehashGroups, if_pos ⟨hi, hlt⟩]
      simp only [hwrap]
      rw [ih hnext (by omega) (by rwa [pow_succ, mul_assoc, mul_comm 2 i] at hn)]
      rfl
    · exact rehash_end hg (n + 1) hicg hge

/-- **Up to 2^30 groups** the function tries the preferred group and then those of `hashGroups`. -/
theorem hashalloc_eq (hg : gcount ≤ 2 ^ 30) {cg n : ℕ} (hcg : cg < gcount) (hn : 31 ≤ n)
    (pref : ℤ) : ext2Hashalloc allocator gcount n cg pref =
      call allocator cg pref (callAll allocator (hashGroups gcount cg)) := by
  obtain ⟨m, rfl⟩ : ∃ m, n = m + 1 := ⟨n - 1, by omega⟩
  have hpow : 2 ^ 30 ≤ 2 ^ m := Nat.pow_le_pow_right (by decide) (by omega)
  unfold ext2Hashalloc hashGroups
  rw [rehash_eq hg hcg hcg Nat.one_pos (by omega)]

theorem right_of_le {cg : ℕ} (hg : gcount ≤ 2 ^ 30) (hcg : cg < gcount) : HashallocRight gcount cg := by
  intro allocator pref hby
  obtain ⟨calls, r, heq, hin, hzero⟩ := callAll_spec allocator (hashGroups gcount cg)
  have hall : (∀ c < gcount, allocator c pref = 0) ↔
      allocator cg pref = 0 ∧ ∀ c ∈ hashGroups gcount cg, allocator c 0 = 0 := by
    constructor
    · intro h
      exact ⟨h cg hcg, fun c hc => (hby c pref 0).1 (h c (hashGroups_lt hcg hc))⟩
    · rintro ⟨hfirst, hrest⟩ c hc
      rcases List.mem_cons.1 (mem_hashGroups hcg hc) with rfl | hmem
      · exact hfirst
      · exact (hby c 0 pref).1 (hrest c hmem)
  by_cases h : allocator cg pref = 0
  · refine ⟨31, cg :: calls, r, fun n hn => ?_, fun c hc => ?_, ?_⟩
    · rw [hashalloc_eq hg hcg hn, heq]
      exact if_neg (not_not.2 h)
    · rcases List.mem_cons.1 hc with rfl | hc
      · exact hcg
      · exact hashGroups_lt hcg (hin c hc)
    · rw [hall, hzero, and_iff_right h]
  · refine ⟨31, [cg], allocator cg pref, fun n hn => ?_, fun c hc => ?_, ?_⟩
    · rw [hashalloc_eq hg hcg hn]
      exact if_pos h
    · rw [List.mem_singleton.1 hc]
      exact hcg
    · exact iff_of_false h fun hz => h (hz cg hcg)

/-! ### Group counts an `int` does not bear -/

/-- With a count that is negative as an `int` the loops run over no group. -/
theorem result_of_ge {allocator : ℕ → ℤ → ℕ} {cg n r : ℕ} (hg : 2 ^ 31 ≤ gcount)
    (hu : gcount < 2 ^ 32) (hfirst : allocator cg 0 = 0)
    (h : (ext2Hashalloc allocator gcount (n + 1) cg 0).result = some (.ok r)) : r = 0 := by
  have hneg : i32 gcount = (gcount : ℤ) - 2 ^ 32 := i32_neg hg hu
  have hnot : ¬(((1 : ℕ) : ℤ) < i32 gcount) := by omega
  have hrounds : (i32 gcount - 2).toNat = 0 := by omega
  unfold ext2Hashalloc call at h
  rw [if_neg (not_not.2 hfirst), rehash, if_neg hnot] at h
  replace h : (sweep allocator gcount cg).result = some (.ok r) := h
  unfold sweep at h
  cases hadd : addInt cg 2 with
  | error _ =>
    rw [hadd] at h
    cases h
  | ok s =>
    rw [hadd, hrounds] at h
    exact (Except.ok.inj (Option.some.inj h)).symm

theorem not_right_of_ge {cg : ℕ} (hg : 2 ^ 31 ≤ gcount) (hu : gcount < 2 ^ 32) :
    ¬HashallocRight gcount cg := by
  intro hright
  -- there is something in one group only, and it is not the preferred one
  obtain ⟨d, hd, hne⟩ : ∃ d < gcount, d ≠ cg := by
    by_cases h : cg = 0
    · exact ⟨1, by omega, by omega⟩
    · exact ⟨0, by omega, Ne.symm h⟩
  obtain ⟨N, calls, r, hrun, -, hzero⟩ := hright (fun c _ => if c = d then 1 else 0) 0
    fun _ _ _ => Iff.rfl
  have hr : r = 0 := result_of_ge hg hu (if_neg (Ne.symm hne))
    (congrArg Search.result (hrun (N + 1) (Nat.le_succ N)))
  have hsome : (if d = d then 1 else 0) = 0 := hzero.1 hr d hd
  rw [if_pos rfl] at hsome
  cases hsome

/-- Where nothing is found, a step that has reached a power of two below 2^31 ends in an overflow. -/
theorem rehash_overflows (hg : 2 ^ 30 < gcount) (hlt : gcount < 2 ^ 31) (icg : ℕ) {n j cg r : ℕ}
    (hj : j ≤ 30) :
    (rehash (fun _ _ => 0) gcount icg n (2 ^ j) cg).result ≠ some (.ok r) := by
  induction n generalizing j cg with
  | zero => exact fun h => by cases h
  | succ n ih =>
    have hpow : 2 ^ j ≤ 2 ^ 30 := Nat.pow_le_pow_right (by decide) hj
    have hlt' : ((2 ^ j : ℕ) : ℤ) < i32 gcount := by
      rw [i32_of_lt (by omega) (by omega), Nat.cast_lt]
      omega
    rw [rehash, if_pos hlt']
    cases hadd : addInt cg (2 ^ j) with
    | error _ => exact fun h => by cases h
    | ok s =>
      simp only [call, ne_eq, not_true_eq_false, if_false]
      rcases Nat.lt_or_ge j 30 with hj30 | hj30
      · have hmul : mulInt (2 ^ j) 2 = .ok (2 ^ (j + 1)) := mulInt_pow <|
          Nat.lt_of_le_of_lt (Nat.pow_le_pow_right (by decide) hj30) (by decide)
        rw [hmul]
        exact ih hj30
      · obtain rfl : j = 30 := Nat.le_antisymm hj hj30
        exact fun h => by cases h

theorem not_right_of_gt {cg : ℕ} (hg : 2 ^ 30 < gcount) (hlt : gcount < 2 ^ 31) :
    ¬HashallocRight gcount cg := by
  intro hright
  obtain ⟨N, calls, r, hrun, -, -⟩ := hright (fun _ _ => 0) 0 fun _ _ _ => Iff.rfl
  have h := congrArg Search.result (hrun N (Nat.le_refl N))
  exact rehash_overflows hg hlt cg (j := 0) (by decide) h

/-- **`ext2_hashalloc` is right** for the group counts up to 2^30 and for no other. -/
theorem hashalloc_right_iff (gcount cg : ℕ) (hu : gcount < 2 ^ 32) (hcg : cg < gcount) :
    HashallocRight gcount cg ↔ gcount ≤ 2 ^ 30 := by
  constructor
  · intro hright
    by_contra hg
    rcases Nat.lt_or_ge gcount (2 ^ 31) with hlt | hge
    · exact not_right_of_gt (by omega) hlt hright
    · exact not_right_of_ge hge hu hright
  · exact fun hg => right_of_le hg hcg

/-- Seven groups, the fifth of them preferred. -/
theorem hashalloc_right_seven : 5 < 7 ∧ (HashallocRight 7 5 ↔ 7 ≤ 2 ^ 30) :=
  ⟨by decide, hashalloc_right_iff 7 5 (by decide) (by decide)⟩

/-- **One group more than 2^30**: where nothing is free the step of the rehash leaves the `int`. -/
theorem hashalloc_overflows : ¬HashallocRight (2 ^ 30 + 1) 0 :=
  not_right_of_gt (by decide) (by decide)

end IntHash

end Ext2fs
