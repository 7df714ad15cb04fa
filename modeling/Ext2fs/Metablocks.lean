import Ext2fs.Bmap
import Mathlib.Data.Nat.Digits.Lemmas

/-!
# Data blocks and meta-blocks as paths

`ext2_getlbns` answers for the logical block of data and for the negative number of a meta-block.  The
numbers of the meta-blocks on a path come from one recurrence, the digits of a block from another.

* `metaPath` — the path below the first meta-block, and `getlbnsPath_takeWhile`: the loop stores it up
  to the meta-block that is asked for;
* `metaPath_prefix` — the meta-block of an entry is found exactly behind the entries before it, in a
  tree whose height is not above the number of pointers;
* `GetlbnsDigits`, `GetlbnsMeta` — what the answers should be for data blocks and for meta-blocks;
* `getlbns_right` — where no product overflows, the first holds for every number of pointers, the second
  from three on.
-/

namespace Ext2fs

open PtrTree

variable {N : ℕ}

/-! ### The path below the first meta-block -/

/-- The entries below a tree of height `h` whose first logical block is `s`. -/
def metaPath (N bn : ℕ) : ℕ → ℕ → List Indir
  | 0, _ => []
  | h + 1, s => ⟨-((s : ℤ) + h), bn / N ^ h % N⟩ :: metaPath N bn h (s + bn / N ^ h % N * N ^ h)

/-- **The loop of `ext2_getlbns`** stores the path up to the meta-block that is asked for. -/
theorem getlbnsPath_takeWhile (hN : 0 < N) (realbn : ℤ) (bn h s : ℕ) :
    getlbnsPath N realbn bn h (N ^ (h - 1)) (-((s : ℤ) + h - 1)) =
      (metaPath N bn h s).takeWhile fun a => a.lbn ≠ realbn := by
  induction h generalizing s with
  | zero => rfl
  | succ h ih =>
    have hkey : -((s : ℤ) + (h + 1 : ℕ) - 1) = -((s : ℤ) + h) := by
      push_cast
      ring
    rw [getlbnsPath, metaPath, hkey, Nat.add_sub_cancel]
    by_cases hreal : -((s : ℤ) + h) = realbn
    · rw [if_pos hreal, List.takeWhile_cons_of_neg (by simpa using hreal)]
    · rw [if_neg hreal, List.takeWhile_cons_of_pos (by simpa using hreal)]
      have hnext : -((s : ℤ) + h) - (-1 + ((bn / N ^ h % N : ℕ) : ℤ) * ((N ^ h : ℕ) : ℤ)) =
          -(((s + bn / N ^ h % N * N ^ h : ℕ) : ℤ) + h - 1) := by
        push_cast
        ring
      simp only [hnext]
      congr 1
      rw [← ih]
      cases h with
      | zero => rfl
      | succ k => rw [pow_succ, Nat.mul_div_cancel _ hN, Nat.add_sub_cancel]

/-- The path depends on the offset below the tree only. -/
theorem metaPath_add (hN : 0 < N) (bn c : ℕ) {h k : ℕ} (hk : h ≤ k) (s : ℕ) :
    metaPath N (bn + c * N ^ k) h s = metaPath N bn h s := by
  induction h generalizing s with
  | zero => rfl
  | succ h ih =>
    -- what is added is a multiple of the whole tree, so it does not reach the digit
    have hdigit : (bn + c * N ^ k) / N ^ h % N = bn / N ^ h % N := by
      obtain ⟨d, rfl⟩ : ∃ d, k = h + 1 + d := ⟨k - (h + 1), by omega⟩
      rw [show bn + c * N ^ (h + 1 + d) = bn + N ^ h * (N * (c * N ^ d)) by ring,
        Nat.add_mul_div_left _ _ (pow_pos hN h), Nat.add_mul_mod_self_left]
    rw [metaPath, metaPath, hdigit, ih (by omega)]

theorem metaPath_offs (bn h s : ℕ) :
    (metaPath N bn h s).map Indir.off = digits N h (bn % N ^ h) := by
  induction h generalizing s with
  | zero => rfl
  | succ h ih =>
    have hoff : bn / N ^ h % N = bn % N ^ (h + 1) / N ^ h := by
      rw [pow_succ, Nat.mod_mul_right_div_self]
    have hrest : bn % N ^ (h + 1) % N ^ h = bn % N ^ h :=
      Nat.mod_mod_of_dvd _ (pow_dvd_pow N (Nat.le_succ h))
    rw [metaPath, List.map_cons, digits, ih, ← hoff, hrest]

theorem metaPath_length (bn h s : ℕ) : (metaPath N bn h s).length = h := by
  induction h generalizing s with
  | zero => rfl
  | succ h ih => rw [metaPath, List.length_cons, ih]

/-- The meta-blocks of a path have negative numbers. -/
theorem metaPath_lbn_neg (bn h : ℕ) {s : ℕ} (hs : 0 < s) : ∀ a ∈ metaPath N bn h s, a.lbn < 0 := by
  induction h generalizing s with
  | zero => exact fun a ha => (List.not_mem_nil ha).elim
  | succ h ih =>
    intro a ha
    rcases List.mem_cons.1 ha with rfl | ha
    · show -((s : ℤ) + h) < 0
      omega
    · exact ih (by omega) a ha

/-- Where a number is a multiple of a power of `N`, and a rest that is smaller than `h`, it is not `h`. -/
theorem ne_of_multiple {c g h : ℕ} (hg : g < h) (hh : h < N) : c * N ^ (g + 1) + g ≠ h := by
  intro heq
  have hc : 1 ≤ c := by
    rcases Nat.eq_zero_or_pos c with rfl | hpos
    · omega
    · exact hpos
  have hpow : N ≤ c * N ^ (g + 1) :=
    (Nat.le_self_pow (Nat.succ_ne_zero g) N).trans (Nat.le_mul_of_pos_left _ hc)
  omega

/-- **The meta-block of an entry.**  Its number leads back to the entries before it: as an offset below
the tree it has their digits, and none of their meta-blocks has the same number. -/
theorem metaPath_prefix (hN : 0 < N) (bn : ℕ) {h s : ℕ} (hh : h ≤ N) {pre post : List Indir} {e : Indir}
    (heq : metaPath N bn h s = pre ++ e :: post) :
    ∃ g c, g < h ∧ c * N ^ (g + 1) + g < N ^ h ∧ -e.lbn = (s : ℤ) + (c * N ^ (g + 1) + g : ℕ) ∧
      (metaPath N (c * N ^ (g + 1) + g) h s).takeWhile (fun a => a.lbn ≠ e.lbn) = pre := by
  induction h generalizing s pre with
  | zero =>
    have := congrArg List.length heq
    simp [metaPath] at this
  | succ h ih =>
    rw [metaPath] at heq
    cases pre with
    | nil =>
      -- the first meta-block: the loop quits at once
      rw [List.nil_append, List.cons.injEq] at heq
      obtain ⟨rfl, -⟩ := heq
      refine ⟨h, 0, Nat.lt_succ_self h, ?_, ?_, ?_⟩
      · rw [Nat.zero_mul, Nat.zero_add]
        exact Nat.lt_of_lt_of_le hh (Nat.le_self_pow (Nat.succ_ne_zero h) N)
      · push_cast
        ring
      · rw [metaPath, List.takeWhile_cons_of_neg (by simp)]
    | cons a pre =>
      rw [List.cons_append, List.cons.injEq] at heq
      obtain ⟨rfl, htail⟩ := heq
      obtain ⟨g, c, hg, hlt, hlbn, htake⟩ := ih (by omega) htail
      have hd : bn / N ^ h % N < N := Nat.mod_lt _ hN
      generalize bn / N ^ h % N = d at htail hlbn htake hd ⊢
      have hsum : (c + d * N ^ (h - (g + 1))) * N ^ (g + 1) + g =
          c * N ^ (g + 1) + g + d * N ^ h := by
        rw [add_mul, mul_assoc, ← pow_add, Nat.sub_add_cancel hg]
        omega
      have hne := ne_of_multiple (c := c + d * N ^ (h - (g + 1))) hg hh
      refine ⟨g, c + d * N ^ (h - (g + 1)), by omega, ?_, ?_, ?_⟩
      · calc (c + d * N ^ (h - (g + 1))) * N ^ (g + 1) + g
            = c * N ^ (g + 1) + g + d * N ^ h := hsum
          _ < N ^ h + d * N ^ h := Nat.add_lt_add_right hlt _
          _ = (d + 1) * N ^ h := by ring
          _ ≤ N * N ^ h := Nat.mul_le_mul_right _ hd
          _ = N ^ (h + 1) := (pow_succ' N h).symm
      · rw [hlbn, hsum]
        push_cast
        ring
      · have hdigit : (c * N ^ (g + 1) + g + d * N ^ h) / N ^ h % N = d := by
          rw [Nat.add_mul_div_right _ _ (pow_pos hN h), Nat.div_eq_of_lt hlt, Nat.zero_add,
            Nat.mod_eq_of_lt hd]
        have hhead : -((s : ℤ) + h) ≠ e.lbn := by
          rw [hsum] at hne
          intro heq
          rw [← heq] at hlbn
          push_cast at hlbn
          apply hne
          have : (d : ℤ) * N ^ h + (c * N ^ (g + 1) + g) = h := by linarith
          exact_mod_cast (by linarith : (c : ℤ) * N ^ (g + 1) + g + d * N ^ h = h)
        rw [hsum, metaPath, hdigit, List.takeWhile_cons_of_pos (by simpa using hhead),
          metaPath_add hN _ _ le_rfl, htake]

/-! ### Digits -/

theorem digits_length (k off : ℕ) : (digits N k off).length = k := by
  induction k generalizing off with
  | zero => rfl
  | succ k ih => rw [digits, List.length_cons, ih]

theorem digits_lt (hN : 0 < N) {k off : ℕ} (hoff : off < N ^ k) : ∀ d ∈ digits N k off, d < N := by
  induction k generalizing off with
  | zero => exact fun d hd => (List.not_mem_nil hd).elim
  | succ k ih =>
    intro d hd
    rcases List.mem_cons.1 hd with rfl | hd
    · rw [pow_succ] at hoff
      exact Nat.div_lt_of_lt_mul hoff
    · exact ih (Nat.mod_lt _ (pow_pos hN k)) d hd

/-- The digits have the offset as their value. -/
theorem ofDigits_digits (k : ℕ) {off : ℕ} (hoff : off < N ^ k) :
    Nat.ofDigits N (digits N k off).reverse = off := by
  induction k generalizing off with
  | zero =>
    rw [pow_zero] at hoff
    obtain rfl : off = 0 := by omega
    rfl
  | succ k ih =>
    have hpos : 0 < N ^ k := by
      rcases Nat.eq_zero_or_pos (N ^ k) with h | h
      · rw [pow_succ, h] at hoff
        omega
      · exact h
    rw [digits, Nat.ofDigits_reverse_cons, ih (Nat.mod_lt _ hpos), digits_length]
    exact Nat.mod_add_div off (N ^ k)

/-- A list of digits is known by its length and its value. -/
theorem digits_unique (hN : 0 < N) {ds es : List ℕ} (hlen : ds.length = es.length)
    (hds : ∀ d ∈ ds, d < N) (hes : ∀ d ∈ es, d < N)
    (hval : Nat.ofDigits N ds.reverse = Nat.ofDigits N es.reverse) : ds = es := by
  rcases Nat.lt_or_ge 1 N with h1 | h1
  · apply List.reverse_injective
    refine Nat.ofDigits_inj_of_len_eq h1 (by simpa using hlen) (fun d hd => ?_) (fun d hd => ?_) hval
    · exact hds d (List.mem_reverse.1 hd)
    · exact hes d (List.mem_reverse.1 hd)
  · -- with one pointer in a block all digits are 0
    have hzero : ∀ l : List ℕ, (∀ d ∈ l, d < N) → l = List.replicate l.length 0 := fun l hl =>
      List.eq_replicate_of_mem fun d hd => by
        have := hl d hd
        omega
    rw [hzero ds hds, hzero es hes, hlen]

/-! ### Data blocks -/

/-- **What `ext2_getlbns` should answer for data blocks**: the number of levels, with the slot of
`i_ib` and the unique digits of the block within its level, and `EFBIG` behind the last tree. -/
structure GetlbnsDigits (N : ℕ) : Prop where
  path : ∀ lbn, 12 ≤ lbn → lbn < 12 + N + N ^ 2 + N ^ 3 → ∃ ap path,
    ext2Getlbns N lbn = .ok (ap :: path) ∧ 1 ≤ path.length ∧ path.length ≤ 3 ∧
    ap.off = path.length - 1 ∧ (∀ a ∈ path, a.off < N) ∧
    lbn = base N (11 + path.length) + Nat.ofDigits N (path.map Indir.off).reverse ∧
    ∀ ds : List ℕ, ds.length = path.length → (∀ d ∈ ds, d < N) →
      lbn = base N (11 + path.length) + Nat.ofDigits N ds.reverse → ds = path.map Indir.off
  efbig : ∀ lbn : ℕ, ext2Getlbns N lbn = .error .efbig ↔ 12 + N + N ^ 2 + N ^ 3 ≤ lbn
  distinct : ∀ (lbn lbn' : ℕ) (path path' : List Indir), 12 ≤ lbn → 12 ≤ lbn' →
    ext2Getlbns N lbn = .ok path → ext2Getlbns N lbn' = .ok path' →
    path.map Indir.off = path'.map Indir.off → lbn = lbn'

/-- The whole path of a data block. -/
theorem getlbns_metaPath (hN : 0 < N) (hN' : N < 2 ^ 21) {lbn r off : ℕ}
    (hl : locate N lbn = some (r, off))
    (hr : 12 ≤ r) :
    ext2Getlbns N lbn = .ok (⟨-((base N r : ℤ) + height r - 1), r - 12⟩ ::
      metaPath N off (height r) (base N r)) := by
  have hbase : 0 < base N r := by
    have hle := base_add_le (N := N) (show 0 < r by omega)
    rw [base_direct (by decide), height_direct (by decide), pow_zero] at hle
    omega
  rw [@getlbns_abs N r off lbn hN' (by rwa [Int.natAbs_natCast]) hr, getlbnsPath_takeWhile hN]
  -- the numbers on the path are negative, so the loop does not quit
  rw [List.takeWhile_eq_self_iff.2 fun a ha => ?_]
  have := metaPath_lbn_neg off (height r) hbase a ha
  simp only [ne_eq, decide_eq_true_eq]
  omega

/-- Where a block behind the direct ones lies. -/
theorem locate_indirect {lbn : ℕ} (h12 : 12 ≤ lbn) (hlt : lbn < 12 + N + N ^ 2 + N ^ 3) :
    ∃ r off, locate N lbn = some (r, off) ∧ 12 ≤ r := by
  cases hl : locate N lbn with
  | none =>
    have := locate_eq_none.1 hl
    omega
  | some x =>
    obtain ⟨hrlt, hoff, hlbn⟩ := locate_eq_some.1 hl
    refine ⟨x.1, x.2, rfl, ?_⟩
    by_contra hr
    rw [height_direct (by omega), pow_zero] at hoff
    rw [base_direct (by omega)] at hlbn
    omega

theorem slot_of_height {r : ℕ} (hr : 12 ≤ r) : r = 11 + height r := by
  unfold height NDADDR
  omega

theorem getlbns_digits (hN : 0 < N) (hN' : N < 2 ^ 21) : GetlbnsDigits N := by
  have hpath : ∀ lbn, 12 ≤ lbn → lbn < 12 + N + N ^ 2 + N ^ 3 → ∃ r off,
      r < NSLOTS ∧ 12 ≤ r ∧ off < N ^ height r ∧ lbn = base N r + off ∧
      ext2Getlbns N lbn = .ok (⟨-((base N r : ℤ) + height r - 1), r - 12⟩ ::
        metaPath N off (height r) (base N r)) ∧
      (metaPath N off (height r) (base N r)).map Indir.off = digits N (height r) off := by
    intro lbn h12 hlt
    obtain ⟨r, off, hl, hr⟩ := locate_indirect h12 hlt
    obtain ⟨hrlt, hoff, hlbn⟩ := locate_eq_some.1 hl
    refine ⟨r, off, hrlt, hr, hoff, hlbn, getlbns_metaPath hN hN' hl hr, ?_⟩
    rw [metaPath_offs, Nat.mod_eq_of_lt hoff]
  have hefbig : ∀ lbn : ℕ, ext2Getlbns N lbn = .error .efbig ↔ 12 + N + N ^ 2 + N ^ 3 ≤ lbn := by
    intro lbn
    refine ⟨fun h => ?_, getlbns_efbig hN'⟩
    by_contra hlt
    rcases Nat.lt_or_ge lbn 12 with hdir | hge
    · rw [getlbns_direct hdir] at h
      cases h
    · obtain ⟨r, off, -, -, -, -, hget, -⟩ := hpath lbn hge (by omega)
      rw [hget] at h
      cases h
  refine ⟨fun lbn h12 hlt => ?_, hefbig, ?_⟩
  · obtain ⟨r, off, hrlt, hr, hoff, hlbn, hget, hoffs⟩ := hpath lbn h12 hlt
    have hheight : height r = 1 ∨ height r = 2 ∨ height r = 3 := by
      rcases slot_cases hrlt with h | rfl | rfl | rfl
      · omega
      · exact Or.inl rfl
      · exact Or.inr (Or.inl rfl)
      · exact Or.inr (Or.inr rfl)
    refine ⟨_, _, hget, ?_⟩
    rw [metaPath_length, hoffs, ← slot_of_height hr, ofDigits_digits _ hoff]
    refine ⟨by omega, by omega, ?_, fun a ha => ?_, hlbn, fun ds hlen hds hval => ?_⟩
    · show r - 12 = height r - 1
      have := slot_of_height hr
      omega
    · refine digits_lt hN hoff a.off ?_
      rw [← hoffs]
      exact List.mem_map_of_mem ha
    · refine digits_unique hN (by rw [hlen, digits_length]) hds (digits_lt hN hoff) ?_
      rw [ofDigits_digits _ hoff]
      omega
  · intro lbn lbn' path path' h12 h12' hp hp' heq
    have hlt : ∀ {l : ℕ} {p : List Indir}, ext2Getlbns N l = .ok p → l < 12 + N + N ^ 2 + N ^ 3 := by
      intro l p hlp
      by_contra hge
      rw [getlbns_efbig hN' (by omega)] at hlp
      cases hlp
    obtain ⟨r, off, hrlt, hr, hoff, hlbn, hget, hoffs⟩ := hpath lbn h12 (hlt hp)
    obtain ⟨r', off', hrlt', hr', hoff', hlbn', hget', hoffs'⟩ := hpath lbn' h12' (hlt hp')
    obtain rfl := Except.ok.inj (hp.symm.trans hget)
    obtain rfl := Except.ok.inj (hp'.symm.trans hget')
    simp only [List.map_cons, hoffs, hoffs', List.cons.injEq] at heq
    obtain rfl : r = r' := by omega
    have hval := congrArg (fun l => Nat.ofDigits N (List.reverse l)) heq.2
    simp only [ofDigits_digits _ hoff, ofDigits_digits _ hoff'] at hval
    omega

/-! ### Meta-blocks -/

/-- **What `ext2_getlbns` should answer for the meta-blocks on a path**: the entries that lead to it.
The first meta-block stands in the first two entries, and the first of them leads to it. -/
def GetlbnsMeta (N : ℕ) : Prop :=
  ∀ lbn : ℕ, 12 ≤ lbn → ∀ path, ext2Getlbns N lbn = .ok path → ∀ pre e post,
    path = pre ++ e :: post → ext2Getlbns N e.lbn = .ok (if pre = [] then [e] else pre)

/-- The answer for the meta-block of an entry below the first one. -/
theorem getlbns_of_prefix (hN : 0 < N) (hN' : N < 2 ^ 21) {r bn : ℕ} (hr : 12 ≤ r) (hrlt : r < NSLOTS)
    (hh : height r ≤ N)
    {pre post : List Indir} {e : Indir}
    (heq : metaPath N bn (height r) (base N r) = pre ++ e :: post) :
    ext2Getlbns N e.lbn = .ok (⟨-((base N r : ℤ) + height r - 1), r - 12⟩ :: pre) := by
  obtain ⟨g, c, -, hlt, hlbn, htake⟩ := metaPath_prefix hN bn hh heq
  have habs : e.lbn.natAbs = base N r + (c * N ^ (g + 1) + g) := by omega
  have hl : locate N e.lbn.natAbs = some (r, c * N ^ (g + 1) + g) :=
    locate_eq_some.2 ⟨hrlt, hlt, habs⟩
  rw [getlbns_abs hN' hl hr, getlbnsPath_takeWhile hN, htake]

theorem getlbns_meta (hN' : N < 2 ^ 21) (hN : 3 ≤ N) : GetlbnsMeta N := by
  intro lbn h12 path hget pre e post heq
  have hlt : lbn < 12 + N + N ^ 2 + N ^ 3 := by
    by_contra hge
    rw [getlbns_efbig hN' (by omega)] at hget
    cases hget
  obtain ⟨r, off, hl, hr⟩ := locate_indirect h12 hlt
  obtain ⟨hrlt, -, -⟩ := locate_eq_some.1 hl
  have hh : height r ≤ N := by
    have : height r ≤ 3 := by
      unfold height NDADDR
      unfold NSLOTS NDADDR NIADDR at hrlt
      omega
    omega
  obtain rfl := Except.ok.inj (hget.symm.trans (getlbns_metaPath (by omega) hN' hl hr))
  cases pre with
  | nil =>
    -- the entry of the inode has the number of the first meta-block
    rw [List.nil_append, List.cons.injEq] at heq
    obtain ⟨rfl, -⟩ := heq
    rw [if_pos rfl]
    obtain ⟨h, hh1⟩ : ∃ h, height r = h + 1 := ⟨height r - 1, by
      have := slot_of_height hr
      omega⟩
    have hfirst : metaPath N off (height r) (base N r) = [] ++
        ⟨-((base N r : ℤ) + h), off / N ^ h % N⟩ ::
          metaPath N off h (base N r + off / N ^ h % N * N ^ h) := by
      rw [hh1]
      rfl
    have hmeta := getlbns_of_prefix (by omega) hN' hr hrlt hh hfirst
    have hsame : -((base N r : ℤ) + h) = -((base N r : ℤ) + height r - 1) := by
      rw [hh1]
      push_cast
      ring
    rwa [hsame] at hmeta
  | cons a pre =>
    rw [List.cons_append, List.cons.injEq] at heq
    obtain ⟨rfl, htail⟩ := heq
    rw [if_neg (List.cons_ne_nil _ _)]
    exact getlbns_of_prefix (by omega) hN' hr hrlt hh htail

/-- **With two pointers in a block** the indirect block of logical block 20 has the number of the triple
indirect block. -/
theorem not_meta_two : ¬GetlbnsMeta 2 := by
  intro h
  have hpath := h 20 (by decide) _ (rfl : ext2Getlbns 2 20 = .ok
    [⟨-20, 2⟩, ⟨-20, 0⟩, ⟨-19, 1⟩, ⟨-20, 0⟩]) [⟨-20, 2⟩, ⟨-20, 0⟩, ⟨-19, 1⟩] ⟨-20, 0⟩ [] rfl
  exact absurd hpath (by decide)

theorem not_meta_one : ¬GetlbnsMeta 1 := by
  intro h
  have hpath := h 13 (by decide) _ (rfl : ext2Getlbns 1 13 = .ok [⟨-14, 1⟩, ⟨-14, 0⟩, ⟨-13, 0⟩])
    [] ⟨-14, 1⟩ [⟨-14, 0⟩, ⟨-13, 0⟩] rfl
  exact absurd hpath (by decide)

/-- **With `2 ^ 21` pointers in a block** the number of blocks below the triple indirect block is negative
in 64 bits, and none of these blocks has a path. -/
theorem not_digits_overflow : ¬GetlbnsDigits (2 ^ 21) := by
  intro h
  have hrefused : ext2Getlbns (2 ^ 21) (12 + 2 ^ 21 + 2 ^ 42 : ℕ) = .error .efbig := by decide
  have hbehind := (h.efbig _).1 hrefused
  omega

/-- **`ext2_getlbns`** gives every data block its level and its digits, for every number of pointers in a
block whose third power fits 63 bits, and for the meta-blocks on its path what leads to them, from three
pointers on. -/
theorem getlbns_right (hN : 1 ≤ N) (hN' : N < 2 ^ 21) : GetlbnsDigits N ∧ (GetlbnsMeta N ↔ 3 ≤ N) := by
  refine ⟨getlbns_digits hN hN', fun h => ?_, getlbns_meta hN'⟩
  by_contra hlt
  obtain rfl | rfl : N = 1 ∨ N = 2 := by omega
  · exact not_meta_one h
  · exact not_meta_two h

/-- The two answers together do not hold of every number of pointers: of two the second does not, and of
`2 ^ 21` the first does not. -/
theorem getlbns_collision : ¬GetlbnsMeta 2 ∧ ¬GetlbnsDigits (2 ^ 21) ∧
    ¬∀ N, 1 ≤ N → GetlbnsDigits N ∧ GetlbnsMeta N :=
  ⟨not_meta_two, not_digits_overflow, fun h => not_meta_two (h 2 (by decide)).2⟩

/-- A volume of 1 KiB blocks. -/
theorem getlbns_right_1k : (1 ≤ 256 ∧ 256 < 2 ^ 21) ∧
    GetlbnsDigits 256 ∧ (GetlbnsMeta 256 ↔ 3 ≤ 256) :=
  ⟨by decide, getlbns_right (by decide) (by decide)⟩

end Ext2fs
