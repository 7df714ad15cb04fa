import Ext2fs.DirRuns

/-!
# The search that starts where the last one ended

A `LOOKUP` that is successful leaves the block of the entry in `i_diroff`, and the next one starts there: a
first pass from `i_diroff` to the end of the directory, and a second one from 0 to `i_diroff`.  The end is
`i_size` in a `doff_t`, an `int32_t`; `i_diroff` is compared with `i_size` itself.

* `PassInv`, `pass_spec` — one pass from a block to another one;
* `lookup_visits` — a lookup finds what is in the blocks it visits;
* `DirCall`, `DirHistory` — the calls that use a directory, and the states they lead to;
* `DirHistory.atBlock` — `i_diroff` is the start of a block in every one of them;
* **`cached_lookup_iff`** — the result is that of a full search exactly when the name is not in a block
  between the end of the search and `i_diroff`;
* **`cached_lookup_small`** — so it is in every directory of less than 2 GiB.
-/

namespace Ext2fs

open Bytes Runs

/-! ### One pass -/

/-- What holds at the head of `searchloop` in a pass of a `LOOKUP` from block `a` to block `b`, in block `k`,
when the records of that block so far hold the entries `pre`. -/
structure PassInv (fs : MExt2fs) (m : Mem) (blocks : List (List Dirent)) (name : List UInt8) (a b : ℕ)
    (s : Scan) (k : ℕ) (pre : List Dirent) : Prop where
  status : s.status = .found
  ge : a ≤ k
  place : (k < b ∧ ∃ post, Cursor fs m blocks k s.offset pre post ∧ s.offset < (k + 1) * fs.bsize) ∨
    (k = b ∧ s.offset = k * fs.bsize ∧ pre = [])
  base : k * fs.bsize < s.offset → s.base = k * fs.bsize ∧ s.entry = s.offset - k * fs.bsize
  unseen : ∀ j, a ≤ j → j < k → ∀ e ∈ blocks.getD j [], e.name ≠ name
  unseen_pre : ∀ e ∈ pre, e.name ≠ name

/-- The name was found in block `k`, in a record that lies in the block. -/
structure Hit (fs : MExt2fs) (m : Mem) (blocks : List (List Dirent)) (name : List UInt8) (s : Scan)
    (k : ℕ) : Prop where
  mem : direntAt m s.offset ∈ blocks.getD k []
  ge : k * fs.bsize ≤ s.offset
  lt : s.offset < (k + 1) * fs.bsize
  ep : s.ep = s.offset
  name : e2dName m s.offset = name
  fits : s.entry + dirRecLen (e2dNamlen m s.ep) ≤ fs.bsize

section

variable {fs : MExt2fs} {d : Directory} {blocks : List (List Dirent)} {name : List UInt8} {a b k : ℕ}
  {s : Scan} {pre post : List Dirent}

/-- What the round does to the variables, while no slot is looked for. -/
theorem PassInv.atRecord (h : PassInv fs d.data blocks name a b s k pre)
    (hc : Cursor fs d.data blocks k s.offset pre post) (hlt : s.offset < (k + 1) * fs.bsize) :
    (((s.atBlock fs.bsize).restart fs.bsize).slot d.data 0).base = k * fs.bsize ∧
      (((s.atBlock fs.bsize).restart fs.bsize).slot d.data 0).entry = s.offset - k * fs.bsize ∧
      (((s.atBlock fs.bsize).restart fs.bsize).slot d.data 0).offset = s.offset ∧
      (((s.atBlock fs.bsize).restart fs.bsize).slot d.data 0).status = .found ∧
      ((s.atBlock fs.bsize).restart fs.bsize).ep = s.offset := by
  have hle := hc.before.le
  have hzero := mod_eq_zero_iff hle hlt
  have hstatus : (s.atBlock fs.bsize).status = .found := by
    unfold Scan.atBlock
    split <;> exact h.status
  have hrestart : (s.atBlock fs.bsize).restart fs.bsize = s.atBlock fs.bsize :=
    if_neg fun hc => SlotStatus.noConfusion (hstatus.symm.trans hc.1)
  have hslot : (s.atBlock fs.bsize).slot d.data 0 = s.atBlock fs.bsize := if_pos hstatus
  rw [hrestart, hslot]
  have hwhere : (s.atBlock fs.bsize).base = k * fs.bsize ∧
      (s.atBlock fs.bsize).entry = s.offset - k * fs.bsize ∧ (s.atBlock fs.bsize).offset = s.offset := by
    unfold Scan.atBlock
    by_cases hstart : s.offset = k * fs.bsize
    · rw [if_pos (hzero.2 hstart)]
      exact ⟨hstart, by rw [hstart, Nat.sub_self], rfl⟩
    · rw [if_neg (hzero.not.2 hstart)]
      obtain ⟨hbase, hentry⟩ := h.base (lt_of_le_of_ne hle (Ne.symm hstart))
      exact ⟨hbase, hentry, rfl⟩
  refine ⟨hwhere.1, hwhere.2.1, hwhere.2.2, hstatus, ?_⟩
  show (s.atBlock fs.bsize).base + (s.atBlock fs.bsize).entry = s.offset
  rw [hwhere.1, hwhere.2.1]
  omega

/-- **One record further.** -/
theorem PassInv.next (hwf : d.Wf fs blocks) (hb : b ≤ blocks.length)
    (h : PassInv fs d.data blocks name a b s k pre) (hkb : k < b)
    (hc : Cursor fs d.data blocks k s.offset pre post) (hlt : s.offset < (k + 1) * fs.bsize) {s₂ : Scan}
    (hbase : s₂.base = k * fs.bsize) (hentry : s₂.entry = s.offset - k * fs.bsize)
    (hoffset : s₂.offset = s.offset) (hstatus : s₂.status = .found)
    (hne : ¬(e2dIno d.data s.offset ≠ 0 ∧ e2dName d.data s.offset = name)) :
    ∃ k' pre', PassInv fs d.data blocks name a b (s₂.next d.data) k' pre' := by
  obtain ⟨hr, post', rfl, hle, hnext⟩ := hc.next hlt
  have hpos := hr.pos
  have hge := hc.before.le
  have hep : s₂.ep = s.offset := by
    show s₂.base + s₂.entry = _
    rw [hbase, hentry]
    omega
  have hoff : (s₂.next d.data).offset = s.offset + e2dReclen d.data s.offset := by
    show s₂.offset + e2dReclen d.data s₂.ep = _
    rw [hep, hoffset]
  have hunseen := liveAt_unseen hne
  rcases Nat.lt_or_eq_of_le hle with hin | hend
  · refine ⟨k, pre ++ liveAt d.data s.offset, hstatus, h.ge, ?_, fun _ => ?_, h.unseen, fun e he => ?_⟩
    · exact .inl ⟨hkb, post', by rw [hoff]; exact hnext, by rw [hoff]; exact hin⟩
    · refine ⟨hbase, ?_⟩
      show s₂.entry + e2dReclen d.data s₂.ep = _
      rw [hep, hentry, hoff]
      omega
    · exact (List.mem_append.1 he).elim (h.unseen_pre e) (hunseen e)
  · -- the block ends behind the record
    have hpost : post' = [] := by
      have hbehind := hnext.behind
      rw [hend] at hbehind
      exact hbehind.eq_nil
    have hblock : blocks.getD k [] = pre ++ liveAt d.data s.offset := by
      have hthis := hnext.block
      rw [hpost, List.append_nil] at hthis
      rw [List.getD_eq_getElem?_getD, hthis]
      rfl
    have hstart : (s₂.next d.data).offset = (k + 1) * fs.bsize := hoff.trans hend
    refine ⟨k + 1, [], hstatus, Nat.le_succ_of_le h.ge, ?_, fun hgt => ?_, fun j hj hj' e he => ?_,
      fun e he => absurd he List.not_mem_nil⟩
    · rw [hstart]
      rcases Nat.lt_or_eq_of_le (Nat.succ_le_of_lt hkb) with hk' | hk'
      · refine .inl ⟨hk', blocks[k + 1], Cursor.start hwf (lt_of_lt_of_le hk' hb), ?_⟩
        exact Nat.mul_lt_mul_of_pos_right (Nat.lt_succ_self _) fs.bsize_pos
      · exact .inr ⟨hk', rfl, rfl⟩
    · rw [hstart] at hgt
      exact absurd hgt (lt_irrefl _)
    · rcases Nat.lt_succ_iff_lt_or_eq.1 hj' with hj' | rfl
      · exact h.unseen j hj hj' e he
      · rw [hblock] at he
        exact (List.mem_append.1 he).elim (h.unseen_pre e) (hunseen e)

/-- **A pass** ends at the name, or has seen all entries from block `a` to block `b`, or fails. -/
theorem PassInv.spec (hwf : d.Wf fs blocks) (hb : b ≤ blocks.length) (read : ℕ → Bool) (fuel : ℕ)
    (hfuel : b * fs.bsize ≤ fuel + s.offset) (h : PassInv fs d.data blocks name a b s k pre) :
    ((∃ j, read j = false) ∧
      scan fs.bsize read d.data name 0 (b * fs.bsize : ℕ) fuel s = .failed .eio) ∨
    (∃ s' k', scan fs.bsize read d.data name 0 (b * fs.bsize : ℕ) fuel s = .found s' ∧
      a ≤ k' ∧ k' < b ∧ Hit fs d.data blocks name s' k') ∨
    ∃ s', scan fs.bsize read d.data name 0 (b * fs.bsize : ℕ) fuel s = .notfound s' ∧
      s'.status = .found ∧ ∀ j, a ≤ j → j < b → ∀ e ∈ blocks.getD j [], e.name ≠ name := by
  induction fuel generalizing s k pre with
  | zero =>
    right; right
    rcases h.place with ⟨hkb, post, hc, hlt⟩ | ⟨rfl, -, rfl⟩
    · have hend : (k + 1) * fs.bsize ≤ b * fs.bsize := Nat.mul_le_mul_right _ hkb
      omega
    · exact ⟨s, rfl, h.status, h.unseen⟩
  | succ fuel ih =>
    rcases h.place with ⟨hkb, post, hc, hlt⟩ | ⟨rfl, hoff, rfl⟩
    swap
    · right; right
      refine ⟨s, ?_, h.status, h.unseen⟩
      rw [scan, if_neg (by omega)]
    have hend : (k + 1) * fs.bsize ≤ b * fs.bsize := Nat.mul_le_mul_right _ hkb
    by_cases hread : s.offset % fs.bsize = 0 ∧ read (s.offset / fs.bsize) = false
    · left
      refine ⟨⟨_, hread.2⟩, ?_⟩
      rw [scan, if_pos (by omega), if_pos hread]
    obtain ⟨hbase, hentry, hoffset, hstatus, hep⟩ := h.atRecord hc hlt
    obtain ⟨hr, post', hpost, hle, -⟩ := hc.next hlt
    have hpos := hr.pos
    have hge := hc.before.le
    generalize hs₂ : ((s.atBlock fs.bsize).restart fs.bsize).slot d.data 0 = s₂ at *
    have hep₂ : s₂.ep = s.offset := by
      show s₂.base + s₂.entry = _
      rw [hbase, hentry]
      omega
    have hround : scan fs.bsize read d.data name 0 (b * fs.bsize : ℕ) (fuel + 1) s =
        if e2dIno d.data s.offset ≠ 0 ∧ e2dName d.data s.offset = name then .found s₂
        else scan fs.bsize read d.data name 0 (b * fs.bsize : ℕ) fuel (s₂.next d.data) := by
      rw [scan, if_pos (by omega), if_neg hread]
      simp only [hep, hs₂, hep₂]
      exact if_neg (by omega)
    rw [hround]
    by_cases hfound : e2dIno d.data s.offset ≠ 0 ∧ e2dName d.data s.offset = name
    · right; left
      have hlive : liveAt d.data s.offset = [direntAt d.data s.offset] := if_neg hfound.1
      refine ⟨s₂, k, if_pos hfound, h.ge, hkb, ?_⟩
      refine ⟨?_, by rw [hoffset]; exact hge, by rw [hoffset]; exact hlt, hep₂.trans hoffset.symm,
        by rw [hoffset]; exact hfound.2, ?_⟩
      · rw [hoffset, List.getD_eq_getElem?_getD, hc.block, hpost, hlive]
        exact List.mem_append_right _ List.mem_cons_self
      · have hfits := hr.fits
        rw [hep₂, hentry]
        rw [Nat.add_mul, Nat.one_mul] at hle
        omega
    · obtain ⟨k', pre', hnext⟩ := h.next hwf hb hkb hc hlt hbase hentry hoffset hstatus hfound
      rw [if_neg hfound]
      apply ih _ hnext
      show _ ≤ fuel + (s₂.offset + e2dReclen d.data s₂.ep)
      rw [hep₂, hoffset]
      omega

/-! ### The two passes -/

variable (name s) in
/-- The pass of `searchloop` from a block on, up to an end that may lie before it. -/
theorem pass_spec (hwf : d.Wf fs blocks) {read : ℕ → Bool} (hread : ∀ j, read j = true) (stop : ℤ)
    (hstop : stop.toNat = b * fs.bsize) (hb : b ≤ blocks.length) (hs : s.status = .found)
    (hoff : s.offset = a * fs.bsize) :
    (∃ s' k, scan fs.bsize read d.data name 0 stop (stop - s.offset).toNat s = .found s' ∧
      a ≤ k ∧ k < b ∧ Hit fs d.data blocks name s' k) ∨
    ∃ s', scan fs.bsize read d.data name 0 stop (stop - s.offset).toNat s = .notfound s' ∧
      s'.status = .found ∧ ∀ k, a ≤ k → k < b → ∀ e ∈ blocks.getD k [], e.name ≠ name := by
  rcases Nat.lt_or_ge a b with hlt | hge
  swap
  · -- there is nothing to search
    have hle : b * fs.bsize ≤ a * fs.bsize := Nat.mul_le_mul_right _ hge
    have hfuel : (stop - s.offset).toNat = 0 := by omega
    rw [hfuel]
    exact Or.inr ⟨s, rfl, hs, fun k hk hk' => absurd hk' (by omega)⟩
  have hpos : 0 < b * fs.bsize := Nat.mul_pos (by omega) fs.bsize_pos
  obtain rfl : stop = (b * fs.bsize : ℕ) := by omega
  have hstart : PassInv fs d.data blocks name a b s a [] := by
    refine ⟨hs, le_rfl, Or.inl ⟨hlt, blocks[a], ?_, ?_⟩, fun hgt => absurd hgt (by omega),
      fun j hj hj' => absurd hj' (by omega), fun e he => (List.not_mem_nil he).elim⟩
    · rw [hoff]
      exact Cursor.start hwf (by omega)
    · rw [hoff]
      exact Nat.mul_lt_mul_of_pos_right (Nat.lt_succ_self a) fs.bsize_pos
  have hfuel : b * fs.bsize ≤ (((b * fs.bsize : ℕ) : ℤ) - s.offset).toNat + s.offset := by omega
  rcases hstart.spec hwf hb read _ hfuel with ⟨⟨j, hj⟩, -⟩ | hfound | hnot
  · rw [hread j] at hj
    exact Bool.noConfusion hj
  · exact Or.inl hfound
  · exact Or.inr hnot

/-- The block at which the search of the whole directory ends. -/
def Directory.endBlock (fs : MExt2fs) (d : Directory) : ℕ := (i32 d.size).toNat / fs.bsize

/-- The number of the blocks that a `LOOKUP` goes through. -/
def Directory.visited (fs : MExt2fs) (d : Directory) : ℕ :=
  if d.resumes .lookup then max (d.diroff.toNat / fs.bsize) (d.endBlock fs) else d.endBlock fs

/-- `endsearch` in blocks. -/
theorem Directory.Wf.endBlock (h : d.Wf fs blocks) :
    (i32 (roundup2 d.size fs.bsize)).toNat = d.endBlock fs * fs.bsize ∧
      d.endBlock fs ≤ blocks.length := by
  have hround : roundup2 d.size fs.bsize = d.size := by
    rw [h.size, roundup2_mul _ fs.bsize_pos]
  have hcases := fs.bsize_cases
  have hsize := h.size
  have hpos := fs.bsize_pos
  have hle : (i32 d.size).toNat ≤ d.size := by
    unfold i32
    split <;> omega
  have hdvd : fs.bsize ∣ (i32 d.size).toNat := by
    unfold i32
    split
    · have hmod : fs.bsize ∣ d.size % 2 ^ 32 :=
        (Nat.dvd_mod_iff (by rcases hcases with hb | hb | hb <;> rw [hb] <;> decide)).2
          (hsize ▸ Nat.dvd_mul_left _ _)
      have hnat : ((d.size : ℤ) % 2 ^ 32).toNat = d.size % 2 ^ 32 := by omega
      rwa [hnat]
    · have hzero : ((d.size : ℤ) % 2 ^ 32 - 2 ^ 32).toNat = 0 := by omega
      rw [hzero]
      exact Nat.dvd_zero _
  rw [hround]
  refine ⟨(Nat.div_mul_cancel hdvd).symm, ?_⟩
  unfold Directory.endBlock
  rw [Nat.div_le_iff_le_mul_add_pred hpos, Nat.mul_comm]
  omega

/-- The directory with `i_diroff` at the start of a block. -/
def Directory.AtBlock (fs : MExt2fs) (d : Directory) : Prop :=
  ∃ c : ℕ, d.diroff = (c * fs.bsize : ℕ) ∧ c * fs.bsize < 2 ^ 31

/-- **A `LOOKUP`** finds the name in one of the blocks that it goes through, or it is in none. -/
theorem lookup_visits (hwf : d.Wf fs blocks) (hat : d.AtBlock fs) {env : LookupEnv}
    (hread : ∀ j, env.read j = true) (name : List UInt8) :
    (∃ t k, ext2Lookup fs env .lookup name d = lookupFound fs.bsize env .lookup t d ∧
      k < d.visited fs ∧ Hit fs d.data blocks name t k) ∨
    (ext2Lookup fs env .lookup name d = (.failed .enoent, d) ∧
      ∀ k < d.visited fs, ∀ e ∈ blocks.getD k [], e.name ≠ name) := by
  obtain ⟨c, hc, hc31⟩ := hat
  obtain ⟨hend, hendle⟩ := hwf.endBlock
  have hpos := fs.bsize_pos
  have hnone : ∀ t : Scan, lookupNotFound fs.bsize .lookup t d = (.failed .enoent, d) := fun t =>
    if_neg fun h => Bool.noConfusion h.1
  by_cases hres : d.resumes .lookup
  · have hstart : d.diroff.toNat = c * fs.bsize := by omega
    have hdiv : d.diroff.toNat / fs.bsize = c := by rw [hstart, Nat.mul_div_cancel _ hpos]
    have hvisited : d.visited fs = max c (d.endBlock fs) := by
      unfold Directory.visited
      rw [if_pos hres, hdiv]
    have hcle : c ≤ blocks.length := by
      have hle : u64 d.diroff ≤ d.size := hres.2.2
      have hu : u64 d.diroff = c * fs.bsize := by
        unfold u64
        omega
      rw [hu, hwf.size] at hle
      exact Nat.le_of_mul_le_mul_right hle hpos
    have hmod : ¬(d.diroff.toNat % fs.bsize ≠ 0 ∧ env.read (d.diroff.toNat / fs.bsize) = false) := by
      rw [hstart, Nat.mul_mod_left]
      exact fun h => h.1 rfl
    have hfirst := pass_spec name (startScan fs.bsize .lookup d.diroff.toNat) hwf hread _ hend hendle
      rfl hstart
    rcases hfirst with ⟨t, k, ht, hk, hk', hit⟩ | ⟨t, ht, hstatus, hunseen⟩
    · left
      refine ⟨t, k, ?_, by omega, hit⟩
      have hsize : fs.bsize ≤ d.size := by
        rw [hwf.size]
        exact Nat.le_mul_of_pos_left _ (by omega)
      have hfits := hit.fits
      rw [ext2Lookup, if_pos hres]
      dsimp only
      rw [if_neg hmod, show slotNeeded .lookup name = 0 from rfl, ht]
      exact if_neg (by omega)
    · have hsecond := pass_spec name { t with offset := 0 } hwf hread d.diroff hstart hcle hstatus
        (Nat.zero_mul _).symm
      rcases hsecond with ⟨t', k, ht', hk, hk', hit⟩ | ⟨t', ht', -, hunseen'⟩
      · left
        refine ⟨t', k, ?_, by omega, hit⟩
        rw [ext2Lookup, if_pos hres]
        dsimp only
        rw [if_neg hmod, show slotNeeded .lookup name = 0 from rfl, ht]
        dsimp only
        rw [ht']
      · right
        refine ⟨?_, fun k hk e he => ?_⟩
        · rw [ext2Lookup, if_pos hres]
          dsimp only
          rw [if_neg hmod, show slotNeeded .lookup name = 0 from rfl, ht]
          dsimp only
          rw [ht']
          exact hnone t'
        · rcases Nat.lt_or_ge k c with hkc | hkc
          · exact hunseen' k (Nat.zero_le k) hkc e he
          · exact hunseen k hkc (by omega) e he
  · have hvisited : d.visited fs = d.endBlock fs := if_neg hres
    have hpass := pass_spec name (startScan fs.bsize .lookup 0) hwf hread _ hend hendle rfl
      (Nat.zero_mul _).symm
    rw [hvisited]
    rcases hpass with ⟨t, k, ht, hk, hk', hit⟩ | ⟨t, ht, -, hunseen⟩
    · left
      refine ⟨t, k, ?_, hk', hit⟩
      rw [ext2Lookup, if_neg hres]
      dsimp only
      rw [show slotNeeded .lookup name = 0 from rfl, ht]
    · right
      refine ⟨?_, fun k hk => hunseen k (Nat.zero_le k) hk⟩
      rw [ext2Lookup, if_neg hres]
      dsimp only
      rw [show slotNeeded .lookup name = 0 from rfl, ht]
      exact hnone t

/-! ### The name is there once -/

/-- The entries of a name are in one block, and are the same. -/
theorem Directory.Wf.unique (hwf : d.Wf fs blocks) {j k : ℕ} {e e' : Dirent}
    (he : e ∈ blocks.getD j []) (he' : e' ∈ blocks.getD k []) (hname : e.name = e'.name) :
    j = k ∧ e = e' := by
  have hmem : ∀ {i : ℕ} {x : Dirent}, x ∈ blocks.getD i [] → ∃ hi : i < blocks.length, x ∈ blocks[i] := by
    intro i x hx
    by_cases hi : i < blocks.length
    · rw [List.getD_eq_getElem _ _ hi] at hx
      exact ⟨hi, hx⟩
    · rw [List.getD_eq_default _ _ (Nat.le_of_not_lt hi)] at hx
      exact (List.not_mem_nil hx).elim
  obtain ⟨hj, hej⟩ := hmem he
  obtain ⟨hk, hek⟩ := hmem he'
  have hnames := hwf.names
  have hflat : ∀ {i : ℕ} (hi : i < blocks.length) {x : Dirent}, x ∈ blocks[i] → x ∈ blocks.flatten :=
    fun hi _ hx => List.mem_flatten.2 ⟨_, List.getElem_mem hi, hx⟩
  refine ⟨?_, List.inj_on_of_nodup_map hnames (hflat hj hej) (hflat hk hek) hname⟩
  -- the names of two blocks are apart
  rw [List.map_flatten] at hnames
  have hapart := List.pairwise_map.1 (List.nodup_flatten.1 hnames).2
  by_contra hne
  rcases Nat.lt_or_gt_of_ne hne with hlt | hlt
  · have hdis := List.pairwise_iff_getElem.1 hapart j k hj hk hlt
    exact hdis (List.mem_map_of_mem hej) (hname ▸ List.mem_map_of_mem hek)
  · have hdis := List.pairwise_iff_getElem.1 hapart k j hk hj hlt
    exact hdis (List.mem_map_of_mem hek) (hname ▸ List.mem_map_of_mem hej)

/-- A `LOOKUP` of a name in a block that it goes through. -/
theorem lookup_present (hwf : d.Wf fs blocks) (hat : d.AtBlock fs) {env : LookupEnv}
    (hread : ∀ j, env.read j = true) {e : Dirent} (hk : k < d.visited fs) (he : e ∈ blocks.getD k []) :
    (ext2Lookup fs env .lookup e.name d).1 = lookupVget env d e.ino := by
  rcases lookup_visits hwf hat hread e.name with ⟨t, j, hrun, -, hit⟩ | ⟨-, hno⟩
  · have heq := (hwf.unique hit.mem he hit.name).2
    have hino : e2dIno d.data t.ep = e.ino := by
      rw [hit.ep]
      exact congrArg Dirent.ino heq
    rw [hrun]
    show lookupVget env d (e2dIno d.data t.ep) = _
    rw [hino]
  · exact absurd rfl (hno k hk e he)

/-- A `LOOKUP` of any other name. -/
theorem lookup_absent (hwf : d.Wf fs blocks) (hat : d.AtBlock fs) {env : LookupEnv}
    (hread : ∀ j, env.read j = true) (hno : ∀ k < d.visited fs, ∀ e ∈ blocks.getD k [], e.name ≠ name) :
    (ext2Lookup fs env .lookup name d).1 = .failed .enoent := by
  rcases lookup_visits hwf hat hread name with ⟨t, k, -, hk, hit⟩ | ⟨hrun, -⟩
  · exact absurd hit.name (hno k hk _ hit.mem)
  · rw [hrun]

/-- A full search of the directory is a `LOOKUP` without `i_diroff`. -/
def Directory.afresh (d : Directory) : Directory := { d with diroff := 0 }

/-- **The two searches agree** unless the name is in a block that only the cached one comes to. -/
theorem lookup_eq_iff (hwf : d.Wf fs blocks) (hat : d.AtBlock fs) {env : LookupEnv}
    (hread : ∀ j, env.read j = true) (hvget : ∀ ino, env.vget ino ≠ some .enoent) :
    (ext2Lookup fs env .lookup name d).1 = (ext2Lookup fs env .lookup name d.afresh).1 ↔
      ∀ k, d.endBlock fs ≤ k → k < d.visited fs → ∀ e ∈ blocks.getD k [], e.name ≠ name := by
  have hwf' : d.afresh.Wf fs blocks := hwf.congr rfl rfl
  have hat' : d.afresh.AtBlock fs := ⟨0, by rw [Nat.zero_mul]; rfl, by omega⟩
  have hvisited' : d.afresh.visited fs = d.endBlock fs := if_neg fun h => h.2.1 rfl
  have hle : d.endBlock fs ≤ d.visited fs := by
    unfold Directory.visited
    split
    · exact le_max_right _ _
    · exact le_rfl
  by_cases hbefore : ∃ k < d.endBlock fs, ∃ e ∈ blocks.getD k [], e.name = name
  · -- both find it
    obtain ⟨k, hk, e, he, rfl⟩ := hbefore
    rw [lookup_present hwf hat hread (lt_of_lt_of_le hk hle) he,
      lookup_present hwf' hat' hread (hvisited'.symm ▸ hk) he]
    refine iff_of_true rfl fun j hj _ e' he' hname => ?_
    have := (hwf.unique he' he hname).1
    omega
  · push Not at hbefore
    rw [lookup_absent hwf' hat' hread (hvisited'.symm ▸ hbefore)]
    constructor
    · intro heq k hk hk' e he hname
      subst hname
      rw [lookup_present hwf hat hread hk' he] at heq
      unfold lookupVget at heq
      split at heq
      · exact LookupRes.noConfusion heq
      · cases hv : env.vget e.ino with
        | none =>
          rw [hv] at heq
          exact LookupRes.noConfusion heq
        | some err =>
          rw [hv] at heq
          exact hvget e.ino (hv.trans (congrArg some (LookupRes.failed.inj heq)))
    · intro hno
      refine lookup_absent hwf hat hread fun k hk e he => ?_
      rcases Nat.lt_or_ge k (d.endBlock fs) with hlt | hge
      · exact hbefore k hlt e he
      · exact hno k hge hk e he

end

/-! ### The calls that use a directory -/

/-- The calls; a new entry may cut the directory behind it. -/
inductive DirCall where
  | lookup (env : LookupEnv) (op : NameiOp) (name : List UInt8)
  | enter (env : EnterEnv) (ip : EntryIno) (name : List UInt8)
  | remove (env : EnterEnv)
  | rewrite (env : EnterEnv) (ip : EntryIno)

/-- What a call leaves. -/
def dirCall (fs : MExt2fs) : DirCall → Directory → Directory
  | .lookup env op name, d => (ext2Lookup fs env op name d).2
  | .enter env ip name, d => (ext2Direnter fs env ip name d).2
  | .remove env, d => (ext2Dirremove fs env d).2
  | .rewrite env ip, d => (ext2Dirrewrite fs env ip d).2

/-- The states that calls lead to, from an inode that was just read. -/
def DirHistory (fs : MExt2fs) (d : Directory) : Prop :=
  Reach (dirCall fs) (fun _ _ => True) (fun d => d.diroff = 0) d

theorem DirHistory.call {fs : MExt2fs} {d d' : Directory} (h : DirHistory fs d) (c : DirCall)
    (hd : dirCall fs c d = d') : DirHistory fs d' := hd ▸ Reach.call c h trivial

section

variable {fs : MExt2fs} {d : Directory} {env : EnterEnv} {ip : EntryIno} {name : List UInt8}

/-- What is found lies before the end of the search. -/
theorem scan_lt {B : ℕ} {read : ℕ → Bool} {m : Mem} {needed stop : ℤ} {fuel : ℕ} {s t : Scan}
    (h : scan B read m name needed stop fuel s = .found t) : (t.offset : ℤ) < stop := by
  induction fuel generalizing s with
  | zero => exact ScanEnd.noConfusion h
  | succ fuel ih =>
    have hslot : ∀ (u : Scan) (x : ℤ), (u.slot m x).offset = u.offset := by
      intro u x
      unfold Scan.slot
      dsimp only
      split_ifs <;> rfl
    have hstart : ((s.atBlock B).restart B).offset = s.offset := by
      unfold Scan.restart Scan.atBlock
      split_ifs <;> rfl
    rw [scan] at h
    split_ifs at h with hlt hread
    dsimp only at h
    split_ifs at h with hzero hfound
    · obtain rfl := ScanEnd.found.inj h
      rw [hslot, hstart]
      exact hlt
    · exact ih h

theorem lookupFound_atBlock (h : d.AtBlock fs) {s : Scan} (hlt : s.offset < 2 ^ 31)
    (env : LookupEnv) (op : NameiOp) : (lookupFound fs.bsize env op s d).2.AtBlock fs := by
  unfold lookupFound
  cases op with
  | lookup =>
    refine ⟨s.offset / fs.bsize, rfl, lt_of_le_of_lt (Nat.div_mul_le_self _ _) hlt⟩
  | create => exact h
  | delete =>
    dsimp only
    split_ifs
    all_goals exact h
  | rename =>
    dsimp only
    split_ifs
    all_goals exact h

theorem lookupNotFound_diroff (fs : MExt2fs) (d : Directory) (op : NameiOp) (s : Scan) :
    (lookupNotFound fs.bsize op s d).2.diroff = d.diroff := by
  unfold lookupNotFound
  split_ifs <;> rfl

/-- A lookup leaves `i_diroff` at the start of a block. -/
theorem lookup_atBlock (h : d.AtBlock fs) (env : LookupEnv) (op : NameiOp) (name : List UInt8) :
    (ext2Lookup fs env op name d).2.AtBlock fs := by
  have hsame : ∀ {d' : Directory}, d'.diroff = d.diroff → d'.AtBlock fs := by
    intro d' hd
    obtain ⟨c, hc, hc31⟩ := h
    exact ⟨c, hd.trans hc, hc31⟩
  have hnot := fun s => hsame (lookupNotFound_diroff fs d op s)
  have hend : i32 (roundup2 d.size fs.bsize) < 2 ^ 31 := by
    unfold i32
    split <;> omega
  have hoff : d.diroff < 2 ^ 31 := by
    obtain ⟨c, hc, hc31⟩ := h
    omega
  have hfound : ∀ {needed stop : ℤ} {fuel : ℕ} {s t : Scan}, stop < 2 ^ 31 →
      scan fs.bsize env.read d.data name needed stop fuel s = .found t →
      (lookupFound fs.bsize env op t d).2.AtBlock fs := by
    intro needed stop fuel s t hstop hs
    have hlt := scan_lt hs
    exact lookupFound_atBlock h (by omega) env op
  unfold ext2Lookup
  dsimp only
  split_ifs
  · exact h
  · split
    · exact h
    · exact h
    · next hs =>
      split
      · exact h
      · exact hfound hend hs
    · split
      · exact h
      · exact h
      · next hs => exact hfound hoff hs
      · exact hnot _
  · split
    · exact h
    · exact h
    · next hs => exact hfound hend hs
    · exact hnot _

theorem truncateTail_diroff (env : EnterEnv) (d : Directory) :
    (truncateTail env d).2.diroff = d.diroff := by
  unfold truncateTail
  split_ifs
  · rfl
  · cases env.truncate with
    | done => rfl
    | failed e cut => cases cut <;> rfl
  · rfl

theorem enterFresh_diroff (m : Mem) (n : ℕ) : (enterFresh fs env m n d).2.diroff = d.diroff := by
  unfold enterFresh
  dsimp only
  cases env.balloc with
  | some e => split_ifs <;> rfl
  | none =>
    dsimp only
    split_ifs <;> rfl

theorem enterSlot_diroff (m : Mem) (n : ℕ) : (enterSlot fs env m n d).2.diroff = d.diroff := by
  unfold enterSlot
  dsimp only
  have hgrow : (if d.size < u64 (d.offset + d.count) then
      ({ d with size := u64 (d.offset + d.count) } : Directory) else d).diroff = d.diroff := by
    split <;> rfl
  generalize (if d.size < u64 (d.offset + d.count) then
      ({ d with size := u64 (d.offset + d.count) } : Directory) else d) = d' at hgrow ⊢
  rw [← hgrow]
  by_cases hat : Directory.atoff fs env.read d'.offset
  swap
  · rw [if_neg hat]
  rw [if_pos hat]
  split
  · rfl
  · split
    · rfl
    · split
      · exact truncateTail_diroff env _
      · rfl

theorem direnter_diroff (ip : EntryIno) (name : List UInt8) :
    (ext2Direnter fs env ip name d).2.diroff = d.diroff := by
  unfold ext2Direnter
  dsimp only
  split_ifs
  · rfl
  · exact enterFresh_diroff _ _
  · exact enterSlot_diroff _ _

theorem writeDir_diroff (write : Bool) (m : Mem) : (writeDir write m d).2.diroff = d.diroff := by
  unfold writeDir
  split_ifs <;> rfl

theorem dirremove_diroff : (ext2Dirremove fs env d).2.diroff = d.diroff := by
  unfold ext2Dirremove
  dsimp only
  split_ifs
  · exact writeDir_diroff _ _
  · rfl
  · exact writeDir_diroff _ _
  · rfl

theorem dirrewrite_diroff : (ext2Dirrewrite fs env ip d).2.diroff = d.diroff := by
  unfold ext2Dirrewrite
  dsimp only
  split_ifs
  · exact writeDir_diroff _ _
  · rfl

/-- **Every call** keeps `i_diroff` at the start of a block. -/
theorem dirCall_atBlock (h : d.AtBlock fs) (c : DirCall) : (dirCall fs c d).AtBlock fs := by
  have hsame : ∀ {d' : Directory}, d'.diroff = d.diroff → d'.AtBlock fs := by
    intro d' hd
    obtain ⟨k, hk, hk31⟩ := h
    exact ⟨k, hd.trans hk, hk31⟩
  cases c with
  | lookup env op name => exact lookup_atBlock h env op name
  | enter env ip name => exact hsame (direnter_diroff ip name)
  | remove env => exact hsame dirremove_diroff
  | rewrite env ip => exact hsame dirrewrite_diroff

/-- So it is in every run. -/
theorem DirHistory.atBlock (h : DirHistory fs d) : d.AtBlock fs := by
  refine Reach.invariant (fun d hd => ⟨0, ?_, by omega⟩) (fun c d hd _ => dirCall_atBlock hd c) h
  rw [Nat.zero_mul]
  exact hd

variable {blocks : List (List Dirent)} {lenv : LookupEnv}

/-- **In a directory of less than 2 GiB** the two are the same. -/
theorem cached_lookup_small (h : DirHistory fs d) (hwf : d.Wf fs blocks) (hsmall : d.size < 2 ^ 31)
    (hread : ∀ j, lenv.read j = true) (hvget : ∀ ino, lenv.vget ino ≠ some .enoent)
    (name : List UInt8) :
    (ext2Lookup fs lenv .lookup name d).1 = (ext2Lookup fs lenv .lookup name d.afresh).1 := by
  refine (lookup_eq_iff hwf h.atBlock hread hvget).2 fun k hk hk' => ?_
  obtain ⟨c, hc, hc31⟩ := h.atBlock
  have hpos := fs.bsize_pos
  have hend := hwf.endBlock.1
  rw [hwf.endsearch hsmall, Int.toNat_natCast] at hend
  have hlast : blocks.length = d.endBlock fs := Nat.eq_of_mul_eq_mul_right hpos hend
  exfalso
  unfold Directory.visited at hk'
  split at hk'
  · next hres =>
    have hle : u64 d.diroff ≤ d.size := hres.2.2
    have hu : u64 d.diroff = c * fs.bsize := by
      unfold u64
      omega
    have hdiv : d.diroff.toNat / fs.bsize = c := by
      rw [show d.diroff.toNat = c * fs.bsize by omega, Nat.mul_div_cancel _ hpos]
    rw [hu, hwf.size] at hle
    have hcle : c ≤ blocks.length := Nat.le_of_mul_le_mul_right hle hpos
    rw [hdiv] at hk'
    omega
  · omega

end

end Ext2fs
