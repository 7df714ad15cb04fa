import Ext2fs.Fsck.Ckinode
import Ext2fs.Bmap
import Ext2fs.Lib.PtrPlaces

/-!
# The blocks the checker visits and the blocks the driver finds

`ckinode` bounds each indirect level by what is left of the size, in 64 bits that may wrap below
zero.  `ext2_bmaparray` takes the digits of the logical number.  Both walk over the places of the same
trees.

* `bmapTrace`, `driverRefs` — the addresses that `ext2_bmaparray` comes through, with the logical
  numbers its path gives them; `bmaparray_driverRefs` — the last of them is its answer;
* `driverBlocks` — these addresses for all logical blocks of the file, each place once;
* `treeRefs_places` — an indirect level of the checker;
* `driverRefs_places` — a path of the driver;
* **`ckinode_visits`** — the checker visits the blocks that the driver finds.
-/

namespace Ext2fs.Fsck

open PtrTree

/-! ### The two views -/

/-- The values of `daddr` in the loop of `ext2_bmaparray`, each with the logical number of the block
it is the address of. -/
def bmapTrace (st : Store) (bn : ℤ) : List Indir → ℕ → List (ℤ × ℕ)
  | [], daddr => [(bn, daddr)]
  | ap :: rest, daddr =>
    (ap.lbn, daddr) :: if daddr = 0 then [] else bmapTrace st bn rest (st daddr ap.off)

/-- The addresses that `ext2_bmaparray` comes through for a logical block. -/
def driverRefs (N : ℕ) (st : Store) (ip : Inode) (lbn : ℕ) : List (ℤ × ℕ) :=
  match ext2Getlbns N lbn with
  | .error _ => []
  | .ok [] => [((lbn : ℤ), ip.db lbn)]
  | .ok (ap :: path) => bmapTrace st lbn path (ip.ib ap.off)

/-- The blocks that the driver finds for the first `n` logical blocks, data blocks and indirect
ones, each as often as there are places that hold it. -/
def driverBlocks (N : ℕ) (st : Store) (ip : Inode) (n : ℕ) : List ℕ :=
  ((((List.range n).flatMap (driverRefs N st ip)).filter fun x => x.2 ≠ 0).dedup).map Prod.snd

/-- A function that only records the numbers it is given. -/
def record (v : Layout) (b : ℕ) (seen : List ℕ) : Ret × List ℕ :=
  (if v.chkrange b 1 then .skip else .keepon, seen ++ [b])

/-- The numbers that `ckinode` visits. -/
def visited (v : Layout) (dp : Dinode) : List ℕ := (ckinode v (record v) dp []).2

/-- The inode that the driver has in core holds the pointers of the one on disk. -/
structure SamePointers (dp : Dinode) (ip : Inode) : Prop where
  direct : dp.direct = (List.range NDADDR).map ip.db
  indirect : dp.indirect = (List.range NIADDR).map ip.ib

section

variable {v : Layout} {dp : Dinode} {ip : Inode}

/-- The loop of `ext2_bmaparray` ends at the last of these addresses. -/
theorem bmapWalk_trace {fs : MExt2fs} {bread : Bread} {st : Store} {bn : ℤ} {path : List Indir}
    (hread : ∀ b : ℕ, bread (fs.fsbtodb b) = .ok (st b)) (hbn : ∀ ap ∈ path, ap.lbn ≠ bn)
    (daddr run : ℕ) :
    (bmapWalk fs bread none bn path daddr run).toOption.map Prod.fst =
      ((bmapTrace st bn path daddr).map Prod.snd).getLast? := by
  induction path generalizing daddr with
  | nil => rfl
  | cons ap rest ih =>
    have hap := hbn ap (List.mem_cons_self ..)
    by_cases hd : daddr = 0
    · rw [bmapWalk, if_pos (.inl hd), bmapTrace, if_pos hd]
      rfl
    · rw [bmapWalk, if_neg (by rintro (h | h) <;> contradiction), hread, bmapTrace, if_neg hd]
      dsimp only
      rw [ih fun a ha => hbn a (List.mem_cons_of_mem _ ha)]
      cases rest with
      | nil => rfl
      | cons a rest => rw [bmapTrace, List.map_cons, List.map_cons, List.map_cons,
          List.getLast?_cons_cons]

/-- What `ext2_bmaparray` makes of an address: the one of a direct block is shifted in its 32 bits. -/
def bmapAddr (fs : MExt2fs) (lbn b : ℕ) : ℤ :=
  let bnp : ℤ := if lbn < NDADDR then fs.blkptrtodb32 b else fs.fsbtodb b
  if bnp = 0 then -1 else bnp

/-- **The answer of `ext2_bmaparray`** is the last of the addresses it comes through. -/
theorem bmaparray_driverRefs {fs : MExt2fs} {bread : Bread} {st : Store} {lbn : ℕ}
    (hread : ∀ b : ℕ, bread (fs.fsbtodb b) = .ok (st b)) :
    (ext2Bmaparray fs bread ip none lbn).toOption.map Prod.fst =
      (((driverRefs fs.nindir st ip lbn).map Prod.snd).getLast?).map (bmapAddr fs lbn) := by
  by_cases hlt : lbn < 12
  · have hdir : lbn < NDADDR := hlt
    unfold ext2Bmaparray driverRefs
    rw [getlbns_direct hlt]
    show _ = some (bmapAddr fs lbn (ip.db lbn))
    unfold bmapAddr
    dsimp only
    rw [if_pos hdir, Int.toNat_natCast]
    by_cases hz : fs.blkptrtodb32 (ip.db lbn) = 0
    · rw [if_pos hz, if_pos (by exact_mod_cast hz)]
      rfl
    · rw [if_neg hz, if_neg (by exact_mod_cast hz)]
      rfl
  · have hind : ¬lbn < NDADDR := hlt
    cases hl : locate fs.nindir lbn with
    | none =>
      have hget := getlbns_efbig fs.nindir_lt (locate_eq_none.1 hl)
      unfold ext2Bmaparray driverRefs
      rw [hget]
      rfl
    | some ro =>
      obtain ⟨hr, hoff, hlbn⟩ := locate_eq_some.1 hl
      have hge : 12 ≤ ro.1 := by
        by_contra hc
        rw [height_direct (by omega), pow_zero] at hoff
        rw [base_direct (by omega)] at hlbn
        omega
      obtain ⟨ap, path, hget, -, -, hneg⟩ := getlbns_path fs.nindir_pos fs.nindir_lt hl hge
      have hbn : ∀ a ∈ path, a.lbn ≠ (lbn : ℤ) := fun a ha => by
        have := hneg a ha
        omega
      have hwalk := bmapWalk_trace hread hbn (ip.ib ap.off) 0
      unfold ext2Bmaparray driverRefs
      rw [hget]
      dsimp only
      rw [← hwalk]
      cases bmapWalk fs bread none lbn path (ip.ib ap.off) 0 with
      | error e => rfl
      | ok d =>
        show some _ = some _
        unfold bmapAddr
        rw [if_neg hind]
theorem record_answers : Answers v (record v) := by
  intro b seen
  refine .inr ?_
  unfold record Layout.inRange
  cases v.chkrange b 1 <;> rfl

theorem callAll_record (l seen : List ℕ) : (callAll (record v) l seen).2 = seen ++ l := by
  induction l generalizing seen with
  | nil => exact (List.append_nil seen).symm
  | cons b l ih =>
    have hgo : (record v b seen).1 ≠ .stop := by
      unfold record
      dsimp only
      split <;> exact Ret.noConfusion
    rw [callAll_go l hgo]
    exact (ih _).trans (List.append_assoc ..)

/-- `blockRefs` lists what `ckinode` visits. -/
theorem visited_eq (v : Layout) (dp : Dinode) : visited v dp = blockRefs v dp := by
  unfold visited
  rw [ckinode_snd v record_answers, callAll_record]
  rfl

end

/-! ### The sizes of a volume -/

section

variable (v : Layout)

theorem Layout.nindir_pos : 1 < v.nindir := by
  obtain ⟨hB, -⟩ := v.cases
  unfold Layout.nindir
  rcases hB with ⟨h, -⟩ | ⟨h, -⟩ | ⟨h, -⟩ <;> rw [h] <;> decide

theorem Layout.bsize_pos : 0 < v.bsize := by
  obtain ⟨hB, -⟩ := v.cases
  rcases hB with ⟨h, -⟩ | ⟨h, -⟩ | ⟨h, -⟩ <;> rw [h] <;> decide

theorem lt_blocksFor {x y i : ℕ} (hy : 0 < y) : i < blocksFor x y ↔ y * i < x := by
  unfold blocksFor
  rw [Nat.lt_div_iff_mul_lt hy, Nat.mul_comm]
  omega

end

/-! ### What the checker visits -/

section

variable {v : Layout} {size n : ℕ}

/-- A run of pointers, with what is left of the size before each. -/
theorem wordRefs_range {bytes start : ℕ} {g : ℕ → ℕ → List ℕ} (f : ℕ → ℕ) (m : ℕ) {i isize : ℕ}
    (hsize : size < 2 ^ 64) (hisize : 0 < m → isize = size - (start + bytes * i))
    (hleft : ∀ j < m, start + bytes * (i + j) < size) :
    wordRefs bytes g ((List.range' i m).map f) isize =
      (List.range' i m).flatMap fun i =>
        if f i = 0 then [] else g (f i) (size - (start + bytes * i)) := by
  induction m generalizing i isize with
  | zero => rfl
  | succ m ih =>
    rw [List.range'_succ, List.map_cons, List.flatMap_cons, wordRefs, hisize (Nat.succ_pos m)]
    congr 1
    refine ih (fun hm => ?_) fun j hj => ?_
    · have hnext := hleft 1 (by omega)
      have hmul : bytes * (i + 1) = bytes * i + bytes := by ring
      unfold sub64
      rw [hmul] at hnext ⊢
      omega
    · have hnext := hleft (j + 1) (by omega)
      rwa [Nat.add_assoc, Nat.add_comm 1 j]

/-- The pointers of a block that are looked at are those that serve the file. -/
theorem pointers_eq {h s p : ℕ} (hn : ∀ i, i < n ↔ v.bsize * i < size) (hs : s < n) :
    ∃ m ≤ v.nindir, v.pointers h (size - v.bsize * s) p = (List.range' 0 m).map (v.words p) ∧
      ∀ i < v.nindir, i < m ↔ s + i * v.nindir ^ h < n := by
  have hpow : 0 < v.nindir ^ h := pow_pos (Nat.lt_of_succ_lt v.nindir_pos) h
  have hbytes : 0 < v.bsize * v.nindir ^ h := Nat.mul_pos v.bsize_pos hpow
  have hstart := (hn s).1 hs
  have hserve : ∀ i, s + i * v.nindir ^ h < n ↔
      v.bsize * v.nindir ^ h * i < size - v.bsize * s := by
    intro i
    rw [hn, Nat.mul_add, show v.bsize * (i * v.nindir ^ h) = v.bsize * v.nindir ^ h * i by ring]
    omega
  unfold Layout.pointers
  dsimp only
  rw [List.range_eq_range']
  by_cases hfull : v.bsize * v.nindir ^ h * v.nindir < size - v.bsize * s
  · rw [if_pos hfull]
    refine ⟨v.nindir, le_refl _, rfl, fun i hi => iff_of_true hi ?_⟩
    rw [hserve]
    exact (Nat.mul_le_mul_left _ hi.le).trans_lt hfull
  · rw [if_neg hfull]
    refine ⟨_, ?_, rfl, fun i _ => ?_⟩
    · by_contra hgt
      exact hfull ((lt_blocksFor hbytes).1 (Nat.lt_of_not_le hgt))
    · rw [hserve]
      exact lt_blocksFor hbytes

/-- **An indirect level of the checker** visits the places of its tree. -/
theorem treeRefs_places {h s p : ℕ} (hsize : size < 2 ^ 64) (hn : ∀ i, i < n ↔ v.bsize * i < size)
    (hs : s < n) (hp : p ≠ 0)
    (hin : ∀ x ∈ places v.nindir v.words (h + 1) s n p, v.inRange x.2 = true) :
    treeRefs v (h + 1) (size - v.bsize * s) p =
      (places v.nindir v.words (h + 1) s n p).map Prod.snd := by
  induction h using Nat.strong_induction_on generalizing s p with
  | _ h ih =>
    have hplaces : places v.nindir v.words (h + 1) s n p = (-((s : ℤ) + h), p) ::
        (List.range v.nindir).flatMap fun i =>
          places v.nindir v.words h (s + i * v.nindir ^ h) n (v.words p i) := if_pos ⟨hs, hp⟩
    have hroot : v.inRange p = true := hin (_, p) (hplaces ▸ List.mem_cons_self ..)
    obtain ⟨m, hm, hpointers, hserve⟩ := pointers_eq (h := h) (p := p) hn hs
    have hpos := (hn s).1 hs
    have hleft : ∀ j < m, v.bsize * s + v.bsize * v.nindir ^ h * (0 + j) < size := by
      intro j hj
      have hlt := (hn _).1 ((hserve j (by omega)).1 hj)
      rwa [show v.bsize * s + v.bsize * v.nindir ^ h * (0 + j) =
        v.bsize * (s + j * v.nindir ^ h) by ring]
    -- what is below one pointer
    have hchild : ∀ i < m, (if v.words p i = 0 then [] else
        if h = 0 then [v.words p i]
        else treeRefs v h (size - (v.bsize * s + v.bsize * v.nindir ^ h * i)) (v.words p i)) =
        (places v.nindir v.words h (s + i * v.nindir ^ h) n (v.words p i)).map Prod.snd := by
      intro i hi
      have hlt := (hserve i (by omega)).1 hi
      by_cases hw : v.words p i = 0
      · rw [if_pos hw, places_of_not fun hc => hc.2 hw]
        rfl
      · rw [if_neg hw]
        cases h with
        | zero =>
          rw [if_pos rfl]
          show _ = (if _ then _ else _ : List (ℤ × ℕ)).map Prod.snd
          rw [if_pos ⟨hlt, hw⟩]
          rfl
        | succ k =>
          rw [if_neg (Nat.succ_ne_zero k), show v.bsize * s + v.bsize * v.nindir ^ (k + 1) * i =
            v.bsize * (s + i * v.nindir ^ (k + 1)) by ring]
          refine ih k (Nat.lt_succ_self k) hlt hw fun x hx => hin x ?_
          rw [hplaces]
          exact List.mem_cons_of_mem _ (List.mem_flatMap.2 ⟨i, List.mem_range.2 (by omega), hx⟩)
    rw [treeRefs_succ, if_pos hroot, hpointers, hplaces, List.map_cons, List.map_flatMap]
    refine congrArg (p :: ·) ?_
    rw [wordRefs_range (v.words p) m hsize (fun _ => by rw [Nat.mul_zero, Nat.add_zero]) hleft]
    -- the pointers that are not looked at serve nothing of the file
    have hrest : List.range v.nindir = List.range' 0 m ++ List.range' m (v.nindir - m) := by
      have happend := @List.range'_append_1 0 m (v.nindir - m)
      rw [Nat.zero_add, Nat.add_sub_cancel' hm] at happend
      rw [List.range_eq_range', happend]
    rw [hrest, List.flatMap_append]
    have hnil : ((List.range' m (v.nindir - m)).flatMap fun i =>
        (places v.nindir v.words h (s + i * v.nindir ^ h) n (v.words p i)).map Prod.snd) = [] := by
      refine List.flatMap_eq_nil_iff.2 fun i hi => ?_
      obtain ⟨hge, hlt⟩ := List.mem_range'_1.1 hi
      have hnot := (hserve i (by omega)).not.1 (by omega)
      rw [places_of_not fun hc => hnot hc.1]
      rfl
    rw [hnil, List.append_nil]
    refine List.flatMap_congr fun i hi => hchild i ?_
    obtain ⟨-, hlt⟩ := List.mem_range'_1.1 hi
    omega

theorem wordRefs_each {bytes : ℕ} (g : ℕ → List ℕ) (ws : List ℕ) (isize : ℕ) :
    wordRefs bytes (fun w _ => g w) ws isize = ws.flatMap fun w => if w = 0 then [] else g w := by
  induction ws generalizing isize with
  | nil => rfl
  | cons w ws ih => rw [wordRefs, ih, List.flatMap_cons]

end

/-! ### What the driver finds -/

section

variable {N : ℕ} {st : Store} {ip : Inode} {lbn r off : ℕ}

/-- The path stores the places on the way. -/
theorem getlbnsPath_trace (hN : 1 < N) (bn : ℕ) :
    ∀ (h s p : ℕ), s + bn % N ^ h = lbn → 0 < s →
      bmapTrace st lbn (getlbnsPath N lbn bn h (N ^ (h - 1)) (-((s : ℤ) + h - 1))) p =
        pathPlaces N st h s p (bn % N ^ h) := by
  intro h
  induction h with
  | zero =>
    intro s p hs _
    rw [pow_zero, Nat.mod_one, Nat.add_zero] at hs
    rw [← hs]
    rfl
  | succ h ih =>
    intro s p hs hpos
    have hne : -((s : ℤ) + (h + 1 : ℕ) - 1) ≠ (lbn : ℤ) := by
      push_cast
      omega
    have hkey : -((s : ℤ) + (h + 1 : ℕ) - 1) = -((s : ℤ) + h) := by
      push_cast
      ring
    have hoff : bn / N ^ h % N = bn % N ^ (h + 1) / N ^ h := by
      rw [pow_succ, Nat.mod_mul_right_div_self]
    have hrest : bn % N ^ (h + 1) % N ^ h = bn % N ^ h :=
      Nat.mod_mod_of_dvd _ (pow_dvd_pow N (Nat.le_succ h))
    rw [getlbnsPath, if_neg hne, Nat.add_sub_cancel]
    dsimp only
    rw [bmapTrace, pathPlaces, hkey, ← hoff, hrest]
    refine congrArg _ ?_
    by_cases hp : p = 0
    · rw [if_pos hp, if_pos hp]
    · rw [if_neg hp, if_neg hp]
      have hdiv : N * (N ^ h) = N ^ (h + 1) := by ring
      have hsum : bn % N ^ (h + 1) = bn / N ^ h % N * N ^ h + bn % N ^ h := by
        have hmod := Nat.div_add_mod (bn % N ^ (h + 1)) (N ^ h)
        rw [← hoff, hrest] at hmod
        rw [← hmod, Nat.mul_comm]
      have hnext : -((s : ℤ) + h) - (-1 + ((bn / N ^ h % N : ℕ) : ℤ) * ((N ^ h : ℕ) : ℤ)) =
          -(((s + bn / N ^ h % N * N ^ h : ℕ) : ℤ) + h - 1) := by
        push_cast
        ring
      rw [hnext]
      have hcount : getlbnsPath N lbn bn h (N ^ h / N)
          (-(((s + bn / N ^ h % N * N ^ h : ℕ) : ℤ) + h - 1)) =
          getlbnsPath N lbn bn h (N ^ (h - 1))
            (-(((s + bn / N ^ h % N * N ^ h : ℕ) : ℤ) + h - 1)) := by
        cases h with
        | zero => rfl
        | succ k => rw [pow_succ, Nat.mul_div_cancel _ (Nat.lt_of_succ_lt hN), Nat.add_sub_cancel]
      rw [hcount]
      exact ih _ _ (by omega) (by omega)

/-- The head of the path to an indirect block. -/
theorem getlbns_eq (hN : N < 2 ^ 21) (hl : locate N lbn = some (r, off)) (hr : 12 ≤ r) :
    ext2Getlbns N lbn = .ok (⟨-((base N r : ℤ) + height r - 1), r - 12⟩ ::
      getlbnsPath N lbn off (height r) (N ^ (height r - 1)) (-((base N r : ℤ) + height r - 1))) :=
  getlbns_abs hN (by rwa [Int.natAbs_natCast]) hr

/-- **A path of the driver** goes through the places on the way to the logical block. -/
theorem driverRefs_places (hN : 1 < N) (hN' : N < 2 ^ 21) (hl : locate N lbn = some (r, off)) :
    driverRefs N st ip lbn = pathPlaces N st (height r) (base N r) (ip.slot r) off := by
  obtain ⟨hrlt, hoff, hlbn⟩ := locate_eq_some.1 hl
  unfold driverRefs Inode.slot
  by_cases hr : r < 12
  · rw [height_direct hr, pow_zero] at hoff
    rw [base_direct hr] at hlbn
    have hlr : lbn = r := by omega
    subst hlr
    have hdir : lbn < NDADDR := hr
    rw [getlbns_direct hr, height_direct hr, base_direct hr, if_pos hdir]
    rfl
  · have hge : 12 ≤ r := Nat.not_lt.1 hr
    have hind : ¬r < NDADDR := hr
    rw [getlbns_eq hN' hl hge, if_neg hind]
    have hmod : off % N ^ height r = off := Nat.mod_eq_of_lt hoff
    have hpos : 0 < base N r := by
      have hle := base_add_le (N := N) (show 0 < r by omega)
      rw [base_direct (by decide), height_direct (by decide), pow_zero] at hle
      omega
    refine (getlbnsPath_trace hN off _ _ _ (by rw [hmod, hlbn]) hpos).trans ?_
    rw [hmod]
    rfl

end

/-! ### The two are one -/

section

variable {v : Layout} {dp : Dinode} {ip : Inode} {n : ℕ}

/-- The places of an inode that serve its first `n` logical blocks. -/
def inodePlaces (N : ℕ) (st : Store) (ip : Inode) (n : ℕ) : List (ℤ × ℕ) :=
  (List.range NSLOTS).flatMap fun r => places N st (height r) (base N r) n (ip.slot r)

theorem base_pos {N r : ℕ} (h : height r ≠ 0) : 0 < base N r := by
  have hr : 12 ≤ r := by
    by_contra hc
    exact h (height_direct (by omega))
  have hle := base_add_le (N := N) (show 0 < r by omega)
  rw [base_direct (by decide), height_direct (by decide), pow_zero] at hle
  omega

/-- The driver comes through these places. -/
theorem mem_inodePlaces {N : ℕ} {st : Store} (hN : 1 < N) (hN' : N < 2 ^ 21)
    (hn : n ≤ 12 + N + N ^ 2 + N ^ 3)
    (x : ℤ × ℕ) : x ∈ inodePlaces N st ip n ↔ x.2 ≠ 0 ∧ ∃ lbn < n, x ∈ driverRefs N st ip lbn := by
  unfold inodePlaces
  constructor
  · intro hx
    obtain ⟨r, hr, hx⟩ := List.mem_flatMap.1 hx
    obtain ⟨hne, off, hoff, hlt, hmem⟩ := (mem_places (by omega)).1 hx
    refine ⟨hne, base N r + off, hlt, ?_⟩
    rw [driverRefs_places hN hN' (locate_eq_some.2 ⟨List.mem_range.1 hr, hoff, rfl⟩)]
    exact hmem
  · rintro ⟨hne, lbn, hlt, hx⟩
    cases hl : locate N lbn with
    | none =>
      have hge := locate_eq_none.1 hl
      omega
    | some ro =>
      obtain ⟨r, off⟩ := ro
      obtain ⟨hr, hoff, hlbn⟩ := locate_eq_some.1 hl
      rw [driverRefs_places hN hN' hl] at hx
      exact List.mem_flatMap.2 ⟨r, List.mem_range.2 hr,
        (mem_places (by omega)).2 ⟨hne, off, hoff, by omega, hx⟩⟩

theorem inodePlaces_nodup {N : ℕ} {st : Store} (hN : 3 < N) : (inodePlaces N st ip n).Nodup := by
  unfold inodePlaces
  have hheight : ∀ r < NSLOTS, height r < N := by
    intro r hr
    unfold NSLOTS NDADDR NIADDR at hr
    unfold height NDADDR
    omega
  refine List.nodup_flatMap.2 ⟨fun r hr => ?_, ?_⟩
  · exact places_nodup (hheight r (List.mem_range.1 hr)) (by omega) base_pos
  · refine List.nodup_range.imp fun {i j} hij => List.disjoint_left.2 fun x hxi hxj => ?_
    have hri := places_range (by omega) base_pos hxi
    have hrj := places_range (by omega) base_pos hxj
    have hapart : base N i + N ^ height i ≤ base N j ∨ base N j + N ^ height j ≤ base N i :=
      (Nat.lt_or_gt_of_ne hij).imp base_add_le base_add_le
    by_cases hsign : 0 ≤ x.1
    · obtain ⟨a1, a2⟩ := hri.1 hsign
      obtain ⟨b1, b2⟩ := hrj.1 hsign
      omega
    · obtain ⟨m, a, -, hkey, hlt⟩ := hri.2 (by omega)
      obtain ⟨m', a', -, hkey', hlt'⟩ := hrj.2 (by omega)
      have hsame : base N i + N * m + a = base N j + N * m' + a' := by
        have hcast : ((base N i + N * m + a : ℕ) : ℤ) = ((base N j + N * m' + a' : ℕ) : ℤ) := by
          linarith
        exact_mod_cast hcast
      omega

/-- The checker visits these places. -/
theorem blockRefs_eq (hsame : SamePointers dp ip) (hblocks : ¬dp.blockless)
    (hsize : dp.inosize < 2 ^ 64) (hn : ∀ i, i < n ↔ v.bsize * i < dp.inosize)
    (hbeyond : ∀ r < NSLOTS, n ≤ base v.nindir r → ip.slot r = 0)
    (hin : ∀ x ∈ inodePlaces v.nindir v.words ip n, v.inRange x.2 = true) :
    blockRefs v dp = (inodePlaces v.nindir v.words ip n).map Prod.snd := by
  have hplace : ∀ r < NSLOTS,
      ∀ x ∈ places v.nindir v.words (height r) (base v.nindir r) n (ip.slot r),
      v.inRange x.2 = true := fun r hr x hx =>
    hin x (List.mem_flatMap.2 ⟨r, List.mem_range.2 hr, hx⟩)
  have hserved : ∀ r < NSLOTS, ip.slot r ≠ 0 → base v.nindir r < n := fun r hr hne => by
    by_contra hc
    exact hne (hbeyond r hr (Nat.not_lt.1 hc))
  -- the direct pointers
  have hdirect : ∀ r < 12, (if ip.db r = 0 then [] else [ip.db r]) =
      (places v.nindir v.words (height r) (base v.nindir r) n (ip.slot r)).map Prod.snd := by
    intro r hr
    have hslot : ip.slot r = ip.db r := if_pos hr
    rw [height_direct hr, base_direct hr, hslot, places]
    by_cases hz : ip.db r = 0
    · rw [if_pos hz, if_neg fun hc => hc.2 hz]
      rfl
    · have hlt := hserved r (by unfold NSLOTS NDADDR NIADDR; omega) (by rwa [hslot])
      rw [base_direct hr] at hlt
      rw [if_neg hz, if_pos ⟨hlt, hz⟩]
      rfl
  -- the indirect ones, with what is left of the size at each level
  have hlevel : ∀ r, 12 ≤ r → r < NSLOTS → ∀ rem, (base v.nindir r < n →
      rem = dp.inosize - v.bsize * base v.nindir r) →
      (if ip.slot r = 0 then [] else treeRefs v (height r) rem (ip.slot r)) =
        (places v.nindir v.words (height r) (base v.nindir r) n (ip.slot r)).map Prod.snd := by
    intro r hge hr rem hrem
    by_cases hz : ip.slot r = 0
    · rw [if_pos hz, places_of_not fun hc => hc.2 hz]
      rfl
    · have hlt := hserved r hr hz
      obtain ⟨h, hh⟩ : ∃ h, height r = h + 1 := ⟨r - 12, by unfold height NDADDR; omega⟩
      have hmem := hplace r hr
      rw [if_neg hz, hrem hlt]
      rw [hh] at hmem ⊢
      exact treeRefs_places hsize hn hlt hz hmem
  have hslots : List.range NSLOTS = List.range 12 ++ [12, 13, 14] := by decide
  unfold blockRefs inodePlaces
  rw [if_neg hblocks, wordRefs_each, hsame.direct, hsame.indirect, hslots, List.flatMap_append,
    List.map_append, List.map_flatMap, List.flatMap_map]
  congr 1
  · exact List.flatMap_congr fun r hr => hdirect r (List.mem_range.1 hr)
  · have h12 : v.bsize * base v.nindir 12 = v.bsize * NDADDR := by
      rw [base_single]
      rfl
    have h13 : v.bsize * base v.nindir 13 = v.bsize * NDADDR + v.bsize * v.nindir := by
      rw [base_double]
      unfold NDADDR
      ring
    have h14 : v.bsize * base v.nindir 14 =
        v.bsize * NDADDR + v.bsize * v.nindir + v.bsize * v.nindir * v.nindir := by
      rw [base_triple]
      unfold NDADDR
      ring
    show (if ip.ib 0 = 0 then [] else treeRefs v 1 _ (ip.ib 0)) ++
      ((if ip.ib 1 = 0 then [] else treeRefs v 2 _ (ip.ib 1)) ++
        ((if ip.ib 2 = 0 then [] else treeRefs v 3 _ (ip.ib 2)) ++ [])) = _
    rw [List.map_flatMap, List.flatMap_cons, List.flatMap_cons, List.flatMap_cons, List.flatMap_nil]
    congr 1
    · refine hlevel 12 (by decide) (by decide) _ fun hlt => ?_
      have hpos := (hn _).1 hlt
      unfold sub64
      omega
    congr 1
    · refine hlevel 13 (by decide) (by decide) _ fun hlt => ?_
      have hpos := (hn _).1 hlt
      unfold sub64
      omega
    congr 1
    · refine hlevel 14 (by decide) (by decide) _ fun hlt => ?_
      have hpos := (hn _).1 hlt
      unfold sub64
      omega

/-- **The checker visits what the driver finds**: each place that serves a logical block of the
file, once, and nothing else.  The last of the places of a block is the answer of `ext2_bmaparray`. -/
theorem ckinode_visits (v : Layout) (dp : Dinode) (ip : Inode) (hsame : SamePointers dp ip)
    (hblocks : ¬dp.blockless)
    (hsize : blocksFor dp.inosize v.bsize ≤ 12 + v.nindir + v.nindir ^ 2 + v.nindir ^ 3)
    (hbeyond : ∀ r < NSLOTS, blocksFor dp.inosize v.bsize ≤ base v.nindir r → ip.slot r = 0)
    (hin : ∀ lbn < blocksFor dp.inosize v.bsize, ∀ x ∈ driverRefs v.nindir v.words ip lbn,
      x.2 ≠ 0 → v.inRange x.2 = true) :
    (visited v dp).Perm (driverBlocks v.nindir v.words ip (blocksFor dp.inosize v.bsize)) ∧
      ∀ (fs : MExt2fs) (bread : Bread), fs.nindir = v.nindir →
        (∀ b : ℕ, bread (fs.fsbtodb b) = .ok (v.words b)) →
        ∀ lbn : ℕ, (ext2Bmaparray fs bread ip none lbn).toOption.map Prod.fst =
          (((driverRefs v.nindir v.words ip lbn).map Prod.snd).getLast?).map (bmapAddr fs lbn) := by
  refine ⟨?_, fun fs bread hnindir hread lbn => hnindir ▸ bmaparray_driverRefs hread⟩
  have hN : 3 < v.nindir ∧ v.nindir < 2 ^ 21 ∧
      v.bsize * (12 + v.nindir + v.nindir ^ 2 + v.nindir ^ 3) < 2 ^ 64 := by
    obtain ⟨hB, -⟩ := v.cases
    unfold Layout.nindir
    rcases hB with ⟨h, -⟩ | ⟨h, -⟩ | ⟨h, -⟩ <;> rw [h] <;> decide
  have hn : ∀ i, i < blocksFor dp.inosize v.bsize ↔ v.bsize * i < dp.inosize := fun i =>
    lt_blocksFor v.bsize_pos
  have hsize64 : dp.inosize < 2 ^ 64 := by
    by_contra hc
    have hlt := (hn (12 + v.nindir + v.nindir ^ 2 + v.nindir ^ 3)).2 (by omega)
    omega
  have hmem : ∀ x : ℤ × ℕ, x ∈ inodePlaces v.nindir v.words ip _ ↔ _ :=
    mem_inodePlaces v.nindir_pos hN.2.1 hsize
  rw [visited_eq, blockRefs_eq hsame hblocks hsize64 hn hbeyond fun x hx =>
    have hx' := (hmem x).1 hx
    hx'.2.elim fun lbn h => hin lbn h.1 x h.2 hx'.1]
  refine List.Perm.map _ ((List.perm_ext_iff_of_nodup (inodePlaces_nodup hN.1) (List.nodup_dedup _)).2
    fun x => ?_)
  rw [hmem, List.mem_dedup, List.mem_filter, List.mem_flatMap]
  simp only [List.mem_range, decide_eq_true_eq]
  exact and_comm

end

/-- A small volume with an indirect block, number 60, that points at the blocks 61 and 62. -/
def sparseVolume : Layout :=
  { smallLayout with
    words := fun b i => if b = 60 then (if i = 0 then 61 else if i = 2 then 62 else 0) else 0 }

/-- A file of fifteen blocks with a few holes, on disk. -/
def sparseFile : Dinode where
  e2di_mode := 0x81A4
  e2di_size := 1024 * 14 + 5
  e2di_size_high := 0
  e2di_dtime := 0
  e2di_nlink := 1
  e2di_nblock := 2 * 5
  direct := [50, 51, 0, 0, 0, 0, 0, 0, 0, 0, 0, 0]
  indirect := [60, 0, 0]

/-- The same file in core. -/
def sparseInode : Inode :=
  { emptyInode with
    size := 1024 * 14 + 5
    db := fun i => if i = 0 then 50 else if i = 1 then 51 else 0
    ib := fun i => if i = 0 then 60 else 0 }

theorem ckinode_visits_sparse :
    visited sparseVolume sparseFile = [50, 51, 60, 61, 62] ∧
      (visited sparseVolume sparseFile).Perm (driverBlocks 256 sparseVolume.words sparseInode 15) :=
  ⟨by decide +kernel, (ckinode_visits sparseVolume sparseFile sparseInode
    ⟨by decide +kernel, by decide +kernel⟩ (by decide +kernel) (by decide +kernel) (by decide +kernel)
    (by decide +kernel)).1⟩

end Ext2fs.Fsck
